import Gem5.Lib.Refinement
import Gem5.Mem.MultiLevelPageTable

namespace Gem5.Mem

open Lib Function Option Nat MultiLevelPageTable Radix

/-! What a page table is for: a map from virtual pages to physical ones. Both tables follow it. -/

abbrev PageMap := Nat → Option Nat

inductive PageTableCall
  | map (vaddr paddr : Nat) (size : Int) (flags : MappingFlags)
  | remap (vaddr : Nat) (size : Int) (newVaddr : Nat)
  | unmap (vaddr : Nat) (size : Int)
  | isUnmapped (vaddr : Nat) (size : Int)
  | lookup (vaddr : Nat)
  | translate (vaddr : Nat)
  | allocPhysPages (npages : Nat)

/-- What a call returns: of the entry that `lookup` finds, where its page starts. -/
inductive PageTableAnswer
  | done
  | unmapped (answer : Bool)
  | page (start : Option Nat)
  | address (paddr : Option Nat)
  deriving DecidableEq, Repr

namespace PageMap

variable (pageShift : Nat)

def mapPages (clobber : Bool) : Nat → Nat → Nat → PageMap → Except PageTableFault PageMap
  | 0, _, _, pages => .ok pages
  | n + 1, vaddr, paddr, pages =>
    if !clobber && (pages vaddr).isSome then .error .alreadyMapped
    else mapPages clobber n (nextPage pageShift vaddr) (nextPage pageShift paddr)
      (Function.update pages vaddr (some paddr))

def remapPages : Nat → Nat → Nat → PageMap → Except PageTableFault PageMap
  | 0, _, _, pages => .ok pages
  | n + 1, vaddr, newVaddr, pages =>
    match pages vaddr with
    | none => .error .notMapped
    | some paddr => remapPages n (nextPage pageShift vaddr) (nextPage pageShift newVaddr)
        (Function.update (Function.update pages vaddr none) newVaddr (some paddr))

def unmapPages : Nat → Nat → PageMap → Except PageTableFault PageMap
  | 0, _, pages => .ok pages
  | n + 1, vaddr, pages =>
    if (pages vaddr).isNone then .error .notMapped
    else unmapPages n (nextPage pageShift vaddr) (Function.update pages vaddr none)

def pagesUnmapped (pages : PageMap) : Nat → Nat → Bool
  | 0, _ => true
  | n + 1, vaddr => (pages vaddr).isNone && pagesUnmapped pages n (nextPage pageShift vaddr)

def call (pages : PageMap) : PageTableCall → Except PageTableFault (PageTableAnswer × PageMap)
  | .map vaddr paddr size flags =>
    if pageOffset pageShift vaddr ≠ 0 then .error .unaligned
    else (mapPages pageShift flags.clobber (pageCount pageShift size) vaddr paddr pages).map
      (.done, ·)
  | .remap vaddr size newVaddr =>
    if pageOffset pageShift vaddr ≠ 0 ∨ pageOffset pageShift newVaddr ≠ 0 then .error .unaligned
    else (remapPages pageShift (pageCount pageShift size) vaddr newVaddr pages).map (.done, ·)
  | .unmap vaddr size =>
    if pageOffset pageShift vaddr ≠ 0 then .error .unaligned
    else (unmapPages pageShift (pageCount pageShift size) vaddr pages).map (.done, ·)
  | .isUnmapped vaddr size =>
    if pageOffset pageShift vaddr ≠ 0 then .error .unaligned
    else .ok (.unmapped (pagesUnmapped pageShift pages (pageCount pageShift size) vaddr), pages)
  | .lookup vaddr => .ok (.page (pages (pageAlign pageShift vaddr)), pages)
  | .translate vaddr => .ok (.address ((pages (pageAlign pageShift vaddr)).map
      (pageOffset pageShift vaddr + ·)), pages)
  | .allocPhysPages _ => .ok (.done, pages)

end PageMap

def FuncPageTable.call (pageShift : Nat) (t : FuncPageTable) :
    PageTableCall → Except PageTableFault (PageTableAnswer × FuncPageTable)
  | .map vaddr paddr size flags => (map pageShift vaddr paddr size flags t).map (.done, ·)
  | .remap vaddr size newVaddr => (remap pageShift vaddr size newVaddr t).map (.done, ·)
  | .unmap vaddr size => (unmap pageShift vaddr size t).map (.done, ·)
  | .isUnmapped vaddr size => (isUnmapped pageShift vaddr size t).map (.unmapped ·, t)
  | .lookup vaddr =>
    let (entry, t) := lookup pageShift vaddr t
    .ok (.page (entry.map TlbEntry.pageStart), t)
  | .translate vaddr =>
    let (paddr, t) := translate pageShift vaddr t
    .ok (.address paddr, t)
  | .allocPhysPages _ => .ok (.done, t)

def MultiLevelPageTable.call {PTE : Type} (ops : PageTableOps PTE) (t : MultiLevelPageTable PTE) :
    PageTableCall → Except PageTableFault (PageTableAnswer × MultiLevelPageTable PTE)
  | .map vaddr paddr size flags => (map ops vaddr paddr size flags t).map (.done, ·)
  | .remap vaddr size newVaddr => (remap ops vaddr size newVaddr t).map (.done, ·)
  | .unmap vaddr size => (unmap ops vaddr size t).map (.done, ·)
  | .isUnmapped vaddr size => (isUnmapped ops vaddr size t).map (fun (b, t) => (.unmapped b, t))
  | .lookup vaddr =>
    (lookup ops vaddr t).map (fun (entry, t) => (.page (entry.map TlbEntry.pageStart), t))
  | .translate vaddr => (translate ops vaddr t).map (fun (paddr, t) => (.address paddr, t))
  | .allocPhysPages npages =>
    (allocPhysPages ops npages t.system).map (fun (_, s) => (.done, { t with system := s }))

def Returns (R : α → β → Prop) (x : PageTableAnswer × α) (y : PageTableAnswer × β) : Prop :=
  x.1 = y.1 ∧ R x.2 y.2

/-! The functional table. -/

namespace FuncPageTable

variable {pageShift : Nat} {pages : PageMap} {t : FuncPageTable}

/-- The table has the pages of the map, and the cache has what the table has. -/
structure Holds (pages : PageMap) (t : FuncPageTable) : Prop where
  table : ∀ v, (t.pTable v).map TlbEntry.pageStart = pages v
  cache : CacheCoherent t

theorem Holds.isSome (h : Holds pages t) (v : Nat) : (t.pTable v).isSome = (pages v).isSome := by
  rw [← h.table v, isSome_map]

theorem update_holds (h : ∀ v, (t.pTable v).map TlbEntry.pageStart = pages v) (v : Nat)
    (entry : Option TlbEntry) (w : Nat) :
    (update t.pTable v entry w).map TlbEntry.pageStart =
      update pages v (entry.map TlbEntry.pageStart) w := by
  obtain rfl | hw := eq_or_ne w v
  · rw [update_self, update_self]
  · rw [update_of_ne hw, update_of_ne hw]
    exact h w

theorem mapPages_follows (h : Holds pages t) :
    Follows (fun _ => False) Holds (PageMap.mapPages pageShift flags.clobber n vaddr paddr pages)
      (mapPages pageShift flags n vaddr paddr t) := by
  induction n generalizing vaddr paddr pages t with
  | zero => exact .ok h
  | succ n ih =>
    unfold PageMap.mapPages mapPages
    rw [h.isSome]
    split
    · exact .error _
    · refine ih ⟨update_holds h.table vaddr _, ?_⟩
      have hins := (h.cache.erase vaddr).insert h.cache.once.notCached_erase
        (TlbEntry.make vaddr paddr flags.uncacheable flags.readOnly)
      rwa [update_idem] at hins

theorem unmapPages_follows (h : Holds pages t) :
    Follows (fun _ => False) Holds (PageMap.unmapPages pageShift n vaddr pages)
      (unmapPages pageShift n vaddr t) := by
  induction n generalizing vaddr pages t with
  | zero => exact .ok h
  | succ n ih =>
    unfold PageMap.unmapPages unmapPages
    rw [← not_isSome, ← not_isSome, h.isSome]
    split
    · exact .error _
    · exact ih ⟨update_holds h.table vaddr none, h.cache.erase vaddr⟩

theorem pagesUnmapped_eq (h : Holds pages t) :
    pagesUnmapped pageShift t n vaddr = PageMap.pagesUnmapped pageShift pages n vaddr := by
  induction n generalizing vaddr with
  | zero => rfl
  | succ n ih =>
    unfold pagesUnmapped PageMap.pagesUnmapped
    rw [ih, h.isSome, ← not_isSome]
    cases (pages vaddr).isSome <;> rfl

theorem lookup_holds (pageShift : Nat) (h : Holds pages t) (vaddr : Nat) :
    (lookup pageShift vaddr t).1.map TlbEntry.pageStart = pages (pageAlign pageShift vaddr) ∧
      Holds pages (lookup pageShift vaddr t).2 := by
  obtain ⟨hfound, hcache⟩ : (lookup pageShift vaddr t).1 = _ ∧ _ := lookup_coherent h.cache
  refine ⟨by rw [hfound, h.table], ⟨?_, hcache⟩⟩
  have hsame : (lookup pageShift vaddr t).2.pTable = t.pTable := by
    unfold lookup
    dsimp only
    split
    · rfl
    · split <;> rfl
  rw [hsame]
  exact h.table

/-- The calls but for a `remap` of pages. -/
def NoRemap : PageTableCall → Prop
  | .remap _ size _ => size ≤ 0
  | _ => True

instance (c : PageTableCall) : Decidable (NoRemap c) := by
  cases c <;> unfold NoRemap <;> infer_instance

theorem call_follows (pageShift : Nat) (h : Holds pages t) (hc : NoRemap c) :
    Follows (fun _ => False) (Returns Holds) (PageMap.call pageShift pages c)
      (call pageShift t c) := by
  cases c with
  | map vaddr paddr size flags =>
    unfold PageMap.call call map
    dsimp only
    split
    · exact .error _
    · exact (mapPages_follows h).map (fun _ _ hR => ⟨rfl, hR⟩)
  | remap vaddr size newVaddr =>
    unfold PageMap.call call remap
    dsimp only
    rw [pageCount_of_le hc]
    split
    · exact .error _
    · exact .ok ⟨rfl, h⟩
  | unmap vaddr size =>
    unfold PageMap.call call unmap
    dsimp only
    split
    · exact .error _
    · exact (unmapPages_follows h).map (fun _ _ hR => ⟨rfl, hR⟩)
  | isUnmapped vaddr size =>
    unfold PageMap.call call isUnmapped
    dsimp only
    split
    · exact .error _
    · exact .ok ⟨congrArg _ (pagesUnmapped_eq h).symm, h⟩
  | lookup vaddr =>
    obtain ⟨hfound, hkept⟩ := lookup_holds pageShift h vaddr
    exact .ok ⟨congrArg _ hfound.symm, hkept⟩
  | translate vaddr =>
    obtain ⟨hfound, hkept⟩ := lookup_holds pageShift h vaddr
    refine .ok ⟨congrArg PageTableAnswer.address ?_, hkept⟩
    rw [← hfound, map_map]
    rfl
  | allocPhysPages npages => exact .ok ⟨rfl, h⟩

end FuncPageTable

/-! The architectural table. -/

namespace MultiLevelPageTable

variable {PTE : Type} {ops : PageTableOps PTE} {pages : PageMap} {t : MultiLevelPageTable PTE}

/-- A page that the offsets of the instruction set tell from the others. -/
def Virtual (ops : PageTableOps PTE) (v : Nat) : Prop :=
  v < ops.virtualLimit ∧ pageOffset ops.pageShift v = 0

instance (v : Nat) : Decidable (Virtual ops v) :=
  inferInstanceAs (Decidable (_ ∧ _))

/-- The start of a page whose number is not zero and fits into an entry. -/
def Physical (ops : PageTableOps PTE) (p : Nat) : Prop :=
  ∃ pnum, p = pnum <<< ops.pageShift ∧ pnum ≠ 0 ∧ pnum < ops.pnumLimit

def pagesOf (ops : PageTableOps PTE) (s : System PTE) (root : Nat) : PageMap := fun v =>
  if Virtual ops v then (pnumOf ops s root v).map (· <<< ops.pageShift) else none

/-- The tables hold the map, and the cache has what the tables hold. -/
structure Holds (ops : PageTableOps PTE) (pages : PageMap) (t : MultiLevelPageTable PTE) :
    Prop where
  sound : Sound ops t.basePtr t.system
  table : pagesOf ops t.system t.basePtr = pages
  cache : Coherent TlbEntry.pageStart pages t.pTableCache

theorem pagesOf_eq {root v : Nat} (hv : Virtual ops v) :
    pagesOf ops s root v = (pnumOf ops s root v).map (· <<< ops.pageShift) :=
  if_pos hv

theorem pnum_of_table {root v a : Nat} (hv : Virtual ops v)
    (ha : table (shape ops) s.mem root (pathFrom ops v 1) = some a) :
    pagesOf ops s root v =
      if ops.getPnum (s.mem (entryAddr ops a ((ops.getOffsets v).getD 0 0))) = 0 then none
      else some (ops.getPnum (s.mem (entryAddr ops a ((ops.getOffsets v).getD 0 0))) <<<
        ops.pageShift) := by
  rw [pagesOf_eq hv, pnumOf_eq, ha]
  split_ifs with hzero
  · exact congrArg (Option.map _) (child_eq_none.mpr hzero)
  · exact congrArg (Option.map _) (child_eq_some hzero)

theorem pnum_of_no_table {root v : Nat} (hv : Virtual ops v)
    (ha : table (shape ops) s.mem root (pathFrom ops v 1) = none) :
    pagesOf ops s root v = none := by
  rw [pagesOf_eq hv, pnumOf_eq, ha]
  rfl

/-- A write to an entry of the last level changes one page. -/
theorem write_pagesOf {root v a : Nat} (hs : Sound ops root s) (hv : Virtual ops v)
    (ha : table (shape ops) s.mem root (pathFrom ops v 1) = some a) (pte : PTE) :
    Sound ops root (write (entryAddr ops a ((ops.getOffsets v).getD 0 0)) pte s) ∧
      pagesOf ops (write (entryAddr ops a ((ops.getOffsets v).getD 0 0)) pte s) root =
        update (pagesOf ops s root) v (((shape ops).next pte).map (· <<< ops.pageShift)) := by
  obtain ⟨hs', hpnum⟩ := write_leaf hs ha pte
  refine ⟨hs', funext (fun w => ?_)⟩
  obtain rfl | hw := eq_or_ne w v
  · rw [update_self, pagesOf_eq hv, hpnum, if_pos rfl]
  · rw [update_of_ne hw]
    unfold pagesOf
    split_ifs with hvw
    · rw [hpnum, if_neg (fun heq => hw (pathFrom_inj hvw.1 hv.1 hvw.2 hv.2 heq))]
    · rfl

theorem next_set (flags : PTEFlags) (hne : pnum ≠ 0) (hlt : pnum < ops.pnumLimit) :
    (shape ops).next (ops.setPTEFields (ops.setPnum pte pnum) flags) = some pnum := by
  have hget : ops.getPnum (ops.setPTEFields (ops.setPnum pte pnum) flags) = pnum := by
    rw [ops.getPnum_setPTEFields, ops.getPnum_setPnum _ _ hlt]
  change (if ops.getPnum _ = 0 then none else some _) = _
  rw [hget, if_neg hne]

theorem next_clear (hlt : 0 < ops.pnumLimit) : (shape ops).next (ops.setPnum pte 0) = none := by
  refine if_pos ?_
  exact ops.getPnum_setPnum pte 0 hlt

section

variable (h : Holds ops pages t) (hvlt : 0 < n → vaddr < addrLimit)
  (hv : ∀ i, i < n → Virtual ops (pageAt ops.pageShift vaddr i))
include h hvlt hv

theorem mapPages_follows
    (hplt : 0 < n → paddr < addrLimit) (hp : ∀ i,
      i < n → Physical ops (pageAt ops.pageShift paddr i)) :
    Follows (· = .outOfMemory) (Holds ops)
      (PageMap.mapPages ops.pageShift flags.clobber n vaddr paddr pages)
      (mapPages ops flags n vaddr paddr t) := by
  induction n generalizing vaddr paddr pages t with
  | zero => exact .ok h
  | succ n ih =>
    have hv0 := hv 0 (succ_pos n)
    obtain ⟨pnum, hpnum, hne, hlt⟩ := hp 0 (succ_pos n)
    rw [pageAt_zero (hvlt (succ_pos n))] at hv0
    rw [pageAt_zero (hplt (succ_pos n))] at hpnum
    refine ((walk_alloc vaddr h.sound).mono_error (fun e he => .inl he)).bind ?_
    rintro _ ⟨a, s, rfl, hs, ha, hsame⟩
    have hpages : pagesOf ops s t.basePtr = pages := by
      rw [← h.table]
      funext w
      unfold pagesOf
      rw [hsame]
    have hfound := pnum_of_table hv0 ha
    rw [hpages] at hfound
    have hsome : (pages vaddr).isSome =
        (ops.getPnum (s.mem (entryAddr ops a ((ops.getOffsets vaddr).getD 0 0))) != 0) := by
      rw [hfound]
      split <;> simp_all
    unfold PageMap.mapPages
    dsimp only
    rw [hsome]
    split
    · exact Meets.error (.inr rfl)
    obtain ⟨hs', hpages'⟩ := write_pagesOf hs hv0 ha (ops.setPTEFields (ops.setPnum
      (s.mem (entryAddr ops a ((ops.getOffsets vaddr).getD 0 0))) (paddr >>> ops.pageShift))
      (pteFlags flags))
    have hshift : paddr >>> ops.pageShift = pnum := by
      rw [hpnum, shiftLeft_shiftRight]
    have hmap : ((shape ops).next (ops.setPTEFields (ops.setPnum
        (s.mem (entryAddr ops a ((ops.getOffsets vaddr).getD 0 0))) (paddr >>> ops.pageShift))
        (pteFlags flags))).map (· <<< ops.pageShift) = some paddr := by
      rw [hshift, next_set _ hne hlt, hpnum]
      rfl
    refine ih ⟨hs', ?_, ?_⟩ (fun _ => nextPage_lt _) (fun i hi => ?_) (fun _ => nextPage_lt _)
      (fun i hi => ?_)
    · rw [hpages', hpages, hmap]
    · have hins := (h.cache.erase vaddr).insert h.cache.once.notCached_erase
        (TlbEntry.make vaddr paddr flags.uncacheable flags.readOnly)
      rwa [update_idem] at hins
    · rw [pageAt_nextPage]
      exact hv (i + 1) (by omega)
    · rw [pageAt_nextPage]
      exact hp (i + 1) (by omega)

theorem unmapPages_follows :
    Follows (· = .outOfMemory) (Holds ops) (PageMap.unmapPages ops.pageShift n vaddr pages)
      (unmapPages ops n vaddr t) := by
  induction n generalizing vaddr pages t with
  | zero => exact .ok h
  | succ n ih =>
    have hv0 := hv 0 (succ_pos n)
    rw [pageAt_zero (hvlt (succ_pos n))] at hv0
    unfold unmapPages PageMap.unmapPages
    rw [walk_find]
    cases ha : table (shape ops) t.system.mem t.basePtr (pathFrom ops vaddr 1) with
    | none =>
      have hfound := pnum_of_no_table hv0 ha
      rw [h.table] at hfound
      rw [hfound]
      exact .error _
    | some a =>
      have hfound := pnum_of_table hv0 ha
      rw [h.table] at hfound
      rw [hfound]
      change Follows _ _ _ (if _ then _ else _)
      split
      · exact .error _
      obtain ⟨hs', hpages'⟩ := write_pagesOf h.sound hv0 ha (ops.setPnum
        (t.system.mem (entryAddr ops a ((ops.getOffsets vaddr).getD 0 0))) 0)
      refine ih ⟨hs', ?_, h.cache.erase vaddr⟩ (fun _ => nextPage_lt _) (fun i hi => ?_)
      · rw [hpages', h.table, next_clear ops.pnumLimit_pos]
        rfl
      · rw [pageAt_nextPage]
        exact hv (i + 1) (by omega)

theorem pagesUnmapped_eq : pagesUnmapped ops n vaddr t =
      .ok (PageMap.pagesUnmapped ops.pageShift pages n vaddr, t) := by
  induction n generalizing vaddr with
  | zero => rfl
  | succ n ih =>
    have hv0 := hv 0 (succ_pos n)
    rw [pageAt_zero (hvlt (succ_pos n))] at hv0
    have hrest := ih (fun _ => nextPage_lt vaddr) (fun i hi => by
      rw [pageAt_nextPage]
      exact hv (i + 1) (by omega))
    unfold pagesUnmapped PageMap.pagesUnmapped
    rw [walk_find]
    cases ha : table (shape ops) t.system.mem t.basePtr (pathFrom ops vaddr 1) with
    | none =>
      have hfound := pnum_of_no_table hv0 ha
      rw [h.table] at hfound
      rw [hfound]
      exact hrest
    | some a =>
      have hfound := pnum_of_table hv0 ha
      rw [h.table] at hfound
      rw [hfound]
      by_cases hzero : ops.getPnum
          (t.system.mem (entryAddr ops a ((ops.getOffsets vaddr).getD 0 0))) = 0
      · rw [if_pos hzero]
        refine Eq.trans ?_ hrest
        exact if_neg (not_not_intro hzero)
      · rw [if_neg hzero]
        exact if_pos hzero

end

theorem lookup_holds (h : Holds ops pages t) (hv : Virtual ops (pageAlign ops.pageShift vaddr)) :
    Meets (lookup ops vaddr t) (fun _ => False) (fun r =>
      r.1.map TlbEntry.pageStart = pages (pageAlign ops.pageShift vaddr) ∧
        Holds ops pages r.2) := by
  unfold lookup
  dsimp only
  split
  · rename_i entry hcached
    exact .ok ⟨(h.cache.cached hcached).symm, h⟩
  rename_i hcached
  rw [walk_find]
  cases ha : table (shape ops) t.system.mem t.basePtr
      (pathFrom ops (pageAlign ops.pageShift vaddr) 1) with
  | none =>
    have hfound := pnum_of_no_table hv ha
    rw [h.table] at hfound
    exact .ok ⟨hfound.symm, h⟩
  | some a =>
    have hfound := pnum_of_table hv ha
    rw [h.table] at hfound
    change Meets (if _ then _ else _) _ _
    split_ifs with hzero
    · rw [if_pos hzero] at hfound
      exact .ok ⟨hfound.symm, h⟩
    · rw [if_neg hzero] at hfound
      exact .ok ⟨hfound.symm, h.sound, h.table,
        h.cache.fill (notCached_of_cached_eq_none hcached) hfound⟩

/-! Runs. -/

/-- The addresses are in range: virtual pages are told apart, and the numbers of physical pages are
not zero and fit into an entry. -/
def InRange (ops : PageTableOps PTE) : PageTableCall → Prop
  | .map vaddr paddr size _ =>
    vaddr + pageCount ops.pageShift size * pageSize ops.pageShift ≤ ops.virtualLimit ∧
      pageOffset ops.pageShift paddr = 0 ∧ 0 < paddr ∧
      paddr + pageCount ops.pageShift size * pageSize ops.pageShift ≤
        ops.pnumLimit * pageSize ops.pageShift
  | .remap vaddr size newVaddr =>
    vaddr + pageCount ops.pageShift size * pageSize ops.pageShift ≤ ops.virtualLimit ∧
      newVaddr + pageCount ops.pageShift size * pageSize ops.pageShift ≤ ops.virtualLimit
  | .unmap vaddr size | .isUnmapped vaddr size =>
    vaddr + pageCount ops.pageShift size * pageSize ops.pageShift ≤ ops.virtualLimit
  | .lookup vaddr | .translate vaddr => vaddr < ops.virtualLimit
  | .allocPhysPages _ => True

instance (c : PageTableCall) : Decidable (InRange ops c) := by
  cases c <;> unfold InRange <;> infer_instance

theorem pageAt_eq (hi : i < n)
    (hle : a + n * pageSize ops.pageShift ≤ limit) (hlimit : limit ≤ addrLimit) :
    pageAt ops.pageShift a i = a + i * pageSize ops.pageShift ∧
      a + i * pageSize ops.pageShift < limit := by
  have hpos : 0 < pageSize ops.pageShift := pageSize_pos
  have hmul := mul_lt_mul_of_pos_right hi hpos
  exact ⟨mod_eq_of_lt (by omega), by omega⟩

theorem range_virtual (hv : pageOffset ops.pageShift vaddr = 0)
    (hle : vaddr + n * pageSize ops.pageShift ≤ ops.virtualLimit) :
    (0 < n → vaddr < addrLimit) ∧ ∀ i, i < n → Virtual ops (pageAt ops.pageShift vaddr i) := by
  refine ⟨fun hn => ?_, fun i hi => ?_⟩
  · have hlt := (pageAt_eq hn hle ops.virtualLimit_le).2
    rw [zero_mul, add_zero] at hlt
    exact hlt.trans_le ops.virtualLimit_le
  · obtain ⟨heq, hlt⟩ := pageAt_eq hi hle ops.virtualLimit_le
    rw [heq]
    refine ⟨hlt, ?_⟩
    unfold pageOffset at *
    rw [add_mul_mod_self_right, hv]

theorem range_physical (hp : pageOffset ops.pageShift paddr = 0) (hpos : 0 < paddr)
    (hle : paddr + n * pageSize ops.pageShift ≤ ops.pnumLimit * pageSize ops.pageShift) :
    (0 < n → paddr < addrLimit) ∧ ∀ i, i < n → Physical ops (pageAt ops.pageShift paddr i) := by
  refine ⟨fun hn => ?_, fun i hi => ?_⟩
  · have hlt := (pageAt_eq hn hle ops.pnumLimit_le).2
    rw [zero_mul, add_zero] at hlt
    exact hlt.trans_le ops.pnumLimit_le
  obtain ⟨heq, hlt⟩ := pageAt_eq hi hle ops.pnumLimit_le
  obtain ⟨pnum, rfl⟩ : pageSize ops.pageShift ∣ paddr := dvd_of_mod_eq_zero hp
  have hsize : 0 < pageSize ops.pageShift := pageSize_pos
  have hsum : pageSize ops.pageShift * pnum + i * pageSize ops.pageShift =
      (pnum + i) * pageSize ops.pageShift := by ring
  rw [heq, hsum]
  rw [hsum] at hlt
  refine ⟨pnum + i, (Nat.shiftLeft_eq _ _).symm, ?_, Nat.lt_of_mul_lt_mul_right hlt⟩
  have := Nat.pos_of_mul_pos_left hpos
  omega

theorem pageAlign_virtual (hv : vaddr < ops.virtualLimit) :
    Virtual ops (pageAlign ops.pageShift vaddr) := by
  refine ⟨(sub_le _ _).trans_lt hv, ?_⟩
  exact sub_mod_eq_zero_of_mod_eq (mod_mod _ _).symm

theorem call_follows (h : Holds ops pages t) (hin : InRange ops c) (hc : FuncPageTable.NoRemap c) :
    Follows (· = .outOfMemory) (Returns (Holds ops)) (PageMap.call ops.pageShift pages c)
      (call ops t c) := by
  cases c with
  | map vaddr paddr size flags =>
    unfold PageMap.call call map
    dsimp only
    split_ifs with haligned
    · exact .error _
    · obtain ⟨hvle, hp, hpos, hple⟩ := hin
      obtain ⟨hvlt, hv⟩ := range_virtual (not_not.mp haligned) hvle
      obtain ⟨hplt, hphys⟩ := range_physical hp hpos hple
      exact (mapPages_follows h hvlt hv hplt hphys).map (fun _ _ hR => ⟨rfl, hR⟩)
  | remap vaddr size newVaddr =>
    unfold PageMap.call call remap
    dsimp only
    rw [pageCount_of_le hc]
    split
    · exact .error _
    · exact .ok ⟨rfl, h⟩
  | unmap vaddr size =>
    unfold PageMap.call call unmap
    dsimp only
    split_ifs with haligned
    · exact .error _
    · obtain ⟨hvlt, hv⟩ := range_virtual (not_not.mp haligned) hin
      exact (unmapPages_follows h hvlt hv).map (fun _ _ hR => ⟨rfl, hR⟩)
  | isUnmapped vaddr size =>
    unfold PageMap.call call isUnmapped
    dsimp only
    split_ifs with haligned
    · exact .error _
    · obtain ⟨hvlt, hv⟩ := range_virtual (not_not.mp haligned) hin
      rw [pagesUnmapped_eq h hvlt hv]
      exact .ok ⟨rfl, h⟩
  | lookup vaddr =>
    have hlook := lookup_holds h (pageAlign_virtual hin)
    unfold PageMap.call call
    dsimp only
    cases hx : lookup ops vaddr t with
    | error e => exact (hlook.of_error hx).elim
    | ok r =>
      obtain ⟨hfound, hkept⟩ := hlook.of_ok hx
      exact .ok ⟨congrArg _ hfound.symm, hkept⟩
  | translate vaddr =>
    have hlook := lookup_holds h (pageAlign_virtual hin)
    unfold PageMap.call call translate
    dsimp only
    cases hx : lookup ops vaddr t with
    | error e => exact (hlook.of_error hx).elim
    | ok r =>
      obtain ⟨hfound, hkept⟩ := hlook.of_ok hx
      refine .ok ⟨congrArg PageTableAnswer.address ?_, hkept⟩
      rw [← hfound, map_map]
      rfl
  | allocPhysPages npages =>
    unfold PageMap.call call allocPhysPages
    dsimp only
    split
    · exact Meets.error (.inl rfl)
    · refine .ok ⟨rfl, ⟨⟨h.sound.separate, fun p a hp hlen ha => ?_, ?_, h.sound.limit⟩, h.table,
        h.cache⟩⟩
      · exact (h.sound.below p a hp hlen ha).trans (le_add_right _ _)
      · exact h.sound.positive.trans_le (le_add_right _ _)

theorem initState_holds {basePtr : Nat} {s : System PTE} (hlimit : s.memPages ≤ ops.pnumLimit) :
    Meets (initState ops basePtr s) (· = .outOfMemory) (Holds ops (fun _ => none)) := by
  have hlevels : 0 < ops.logLevelSize.length := levels_pos
  unfold initState
  dsimp only
  generalize hroot : (if basePtr = 0 then basePtr + 1 else basePtr) = root
  have hpos : 0 < root := by
    rw [← hroot]
    split <;> omega
  unfold allocPhysPages
  split
  · exact .error rfl
  have hblank : ∀ o, o < (shape ops).fits 0 →
      child (shape ops) (memsetBlob ops (root <<< ops.pageShift)
        (tablePages ops (ops.logLevelSize.length - 1) <<< ops.pageShift)
        { s with pagePtr := root + tablePages ops (ops.logLevelSize.length - 1) }).mem root o =
        none := by
    intro o ho
    have hown := (shape ops).slot_own (a := root) ho
    have hin : root <<< ops.pageShift ≤ entryAddr ops root o ∧ entryAddr ops root o <
        root <<< ops.pageShift +
          tablePages ops (ops.logLevelSize.length - 1) <<< ops.pageShift := by
      rw [shiftLeft_eq, shiftLeft_eq, ← add_mul]
      exact hown
    refine child_eq_none.mpr ?_
    rw [show (memsetBlob ops (root <<< ops.pageShift)
      (tablePages ops (ops.logLevelSize.length - 1) <<< ops.pageShift) _).mem
      (entryAddr ops root o) = ops.zero from if_pos hin]
    exact ops.getPnum_zero
  refine .ok ⟨⟨fun p q a b x hp hq _ _ ha hb _ _ => ?_, fun p a hp _ ha => ?_, ?_, hlimit⟩,
    funext (fun v => ?_), Coherent.empty _ _ 3⟩
  · rw [eq_nil_of_blank hblank hp ha, eq_nil_of_blank hblank hq hb]
  · have hnil := eq_nil_of_blank hblank hp ha
    subst hnil
    cases ha
    exact le_rfl
  · exact Nat.add_pos_left hpos _
  · by_cases hv : Virtual ops v
    · rw [pagesOf_eq hv]
      refine map_eq_none_iff.mpr (eq_none_iff_forall_ne_some.mpr (fun a ha => ?_))
      have hnil := congrArg List.length
        (eq_nil_of_blank hblank (pathFrom_valid v (zero_le _)) ha)
      rw [pathFrom_length] at hnil
      exact absurd hnil hlevels.ne'
    · exact if_neg hv

end MultiLevelPageTable

/-! Both tables side by side. -/

structure PageTables (PTE : Type) where
  func : FuncPageTable
  multi : MultiLevelPageTable PTE

namespace PageTables

variable {PTE : Type} (ops : PageTableOps PTE)

def apply (w : PageTables PTE) (c : PageTableCall) : Except PageTableFault (PageTables PTE) := do
  let (_, func) ← w.func.call ops.pageShift c
  let (_, multi) ← w.multi.call ops c
  .ok { func, multi }

def machine : Machine (PageTables PTE) PageTableCall where
  init w := w.func = FuncPageTable.initial ∧ ∃ basePtr s, s.memPages ≤ ops.pnumLimit ∧
    MultiLevelPageTable.initState ops basePtr s = .ok w.multi
  step w c w' := MultiLevelPageTable.InRange ops c ∧ apply ops w c = .ok w'

def move (w : PageTables PTE) (c : PageTableCall) : Option (PageTables PTE) :=
  if MultiLevelPageTable.InRange ops c then (apply ops w c).toOption else none

theorem step_of_move (w : PageTables PTE) (c : PageTableCall) (w' : PageTables PTE)
    (h : move ops w c = some w') : (machine ops).step w c w' := by
  obtain ⟨hin, h⟩ := Option.ite_none_right_eq_some.mp h
  exact ⟨hin, toOption_eq_some.mp h⟩

def Agree (w : PageTables PTE) : Prop :=
  ∃ pages, FuncPageTable.Holds pages w.func ∧ MultiLevelPageTable.Holds ops pages w.multi

/-- The calls but for a `remap` of pages. -/
def NoRemap (_ : PageTables PTE) (c : PageTableCall) : Prop := FuncPageTable.NoRemap c

instance (w : PageTables PTE) (c : PageTableCall) : Decidable (NoRemap w c) :=
  inferInstanceAs (Decidable (FuncPageTable.NoRemap c))

variable {ops} {w w' : PageTables PTE}

theorem Agree.step (h : Agree ops w) (hin : InRange ops c) (hc : NoRemap w c)
    (hstep : apply ops w c = .ok w') : Agree ops w' := by
  obtain ⟨pages, hfunc, hmulti⟩ := h
  have hf := FuncPageTable.call_follows ops.pageShift hfunc hc
  have hm := call_follows hmulti hin hc
  obtain ⟨x, hx, hstep⟩ := bind_eq_ok.mp hstep
  obtain ⟨y, hy, hstep⟩ := bind_eq_ok.mp hstep
  cases hstep
  obtain ⟨r, hspec, -, hR⟩ := hf.of_ok hx
  obtain ⟨r', hspec', -, hR'⟩ := hm.of_ok hy
  cases hspec.symm.trans hspec'
  exact ⟨r.2, hR, hR'⟩

theorem reachable_agree (h : ((machine ops).restrict NoRemap).Reachable w) : Agree ops w := by
  refine h.invariant (I := Agree ops) (fun w hw => ?_) (fun w c w' hw hstep => ?_)
  · obtain ⟨hfunc, basePtr, s, hlimit, hmulti⟩ := hw
    refine ⟨fun _ => none, ?_, (initState_holds hlimit).of_ok hmulti⟩
    rw [hfunc]
    exact ⟨fun _ => rfl, Coherent.empty _ _ 3⟩
  · exact hw.step hstep.1.1 hstep.2 hstep.1.2

/-- While no pages are remapped, both tables have the same pages mapped to the same physical pages,
and every call has the same outcome, unless there are no physical pages left for a new table. The
physical memory is one that ends below the region of the m5ops. -/
theorem page_tables_agree (h : ((machine ops).restrict NoRemap).Reachable w) :
    (∀ v, MultiLevelPageTable.Virtual ops v → (w.func.pTable v).map TlbEntry.pageStart =
        (MultiLevelPageTable.pnumOf ops w.multi.system w.multi.basePtr v).map
          (· <<< ops.pageShift)) ∧
    ∀ c, MultiLevelPageTable.InRange ops c → NoRemap w c →
      w.multi.call ops c = .error .outOfMemory ∨
        (w.func.call ops.pageShift c).map Prod.fst = (w.multi.call ops c).map Prod.fst := by
  obtain ⟨pages, hfunc, hmulti⟩ := reachable_agree h
  refine ⟨fun v hv => ?_, fun c hin hc => ?_⟩
  · rw [hfunc.table, ← hmulti.table, pagesOf_eq hv]
  have hf := FuncPageTable.call_follows ops.pageShift hfunc hc
  have hm := call_follows hmulti hin hc
  cases hy : w.multi.call ops c with
  | error e =>
    rcases hm.of_error hy with rfl | hspec'
    · exact .inl rfl
    refine .inr ?_
    cases hx : w.func.call ops.pageShift c with
    | error e' =>
      rcases hf.of_error hx with hno | hspec
      · exact hno.elim
      · cases hspec.symm.trans hspec'
        rfl
    | ok x =>
      obtain ⟨r, hspec, -⟩ := hf.of_ok hx
      cases hspec.symm.trans hspec'
  | ok y =>
    refine .inr ?_
    obtain ⟨r', hspec', hanswer', -⟩ := hm.of_ok hy
    cases hx : w.func.call ops.pageShift c with
    | error e' =>
      rcases hf.of_error hx with hno | hspec
      · exact hno.elim
      · cases hspec.symm.trans hspec'
    | ok x =>
      obtain ⟨r, hspec, hanswer, -⟩ := hf.of_ok hx
      cases hspec.symm.trans hspec'
      exact congrArg Except.ok (hanswer.symm.trans hanswer')

end PageTables

/-! The instruction set with an architectural page table. -/

/-- The fields of an x86 page table entry that the page table sets and reads. -/
structure X86PageTableEntry where
  base : Nat := 0
  pcd : Bool := false
  u : Bool := false
  w : Bool := false
  p : Bool := false
  deriving DecidableEq, Repr

/-- Four levels of tables with 512 entries of 8 bytes. -/
def x86PageTableOps : PageTableOps X86PageTableEntry where
  pageShift := 12
  logEntrySize := 3
  logLevelSize := [9, 9, 9, 9]
  virtualLimit := 2 ^ 48
  pnumLimit := 2 ^ 40
  zero := {}
  getOffsets v := [v / 2 ^ 12 % 2 ^ 9, v / 2 ^ 21 % 2 ^ 9, v / 2 ^ 30 % 2 ^ 9, v / 2 ^ 39 % 2 ^ 9]
  getPnum e := e.base
  setPnum e pnum := { e with base := pnum % 2 ^ 40 }
  setPTEFields e flags :=
    { e with
      p := !flags.notPresent
      pcd := flags.uncacheable
      w := !flags.readOnly
      u := true }
  isUncacheable e := e.pcd
  isReadOnly e := !e.w
  virtualLimit_le := by decide
  pnumLimit_le := by decide
  pnumLimit_pos := by decide
  levels := by decide
  wide := by decide
  offsets_length _ := rfl
  offsets_lt v i hi := by
    have hcases : i = 0 ∨ i = 1 ∨ i = 2 ∨ i = 3 := by
      simp only [List.length_cons, List.length_nil] at hi
      omega
    rcases hcases with rfl | rfl | rfl | rfl <;> exact Nat.mod_lt _ (by decide)
  offsets_inj v w hv hw hva hwa h := by
    simp only [List.cons.injEq, and_true] at h
    omega
  getPnum_zero := rfl
  getPnum_setPnum _ _ hlt := Nat.mod_eq_of_lt hlt
  getPnum_setPTEFields _ _ := rfl

namespace PageTables

def x86Start : PageTables X86PageTableEntry where
  func := FuncPageTable.initial
  multi :=
    { system := MultiLevelPageTable.memsetBlob x86PageTableOps 0x70000 0x1000
        { mem := fun _ => {}, pagePtr := 0x71, memPages := 0x1000 }
      basePtr := 0x70
      pTableCache := List.replicate 3 {} }

theorem x86Start_init : (machine x86PageTableOps).init x86Start :=
  ⟨rfl, 0x70, { mem := fun _ => {}, pagePtr := 0, memPages := 0x1000 }, by decide, rfl⟩

/-- Two pages are mapped, and one is unmapped. -/
theorem page_tables_agree_mapped : ∃ w, ((machine x86PageTableOps).restrict NoRemap).Reachable w ∧
      (w.func.call 12 (.translate 0x2008)).map Prod.fst = .ok (.address (some 0x6008)) ∧
      (w.multi.call x86PageTableOps (.translate 0x2008) = .error .outOfMemory ∨
        (w.func.call 12 (.translate 0x2008)).map Prod.fst =
          (w.multi.call x86PageTableOps (.translate 0x2008)).map Prod.fst) := by
  obtain ⟨w, hw, hanswer⟩ := Machine.exists_run
    (Machine.restrict_step (step_of_move x86PageTableOps) NoRemap) (.start x86Start_init)
    [.map 0x1000 0x5000 0x2000 {}, .unmap 0x1000 0x1000]
    (P := fun w => (w.func.call 12 (.translate 0x2008)).toOption.map Prod.fst = some
      (.address (some 0x6008)))
    (by decide)
  refine ⟨w, hw, ?_, (page_tables_agree hw).2 _ (by decide) trivial⟩
  obtain ⟨x, hx, hanswer⟩ := Option.map_eq_some_iff.mp hanswer
  rw [toOption_eq_some.mp hx]
  exact congrArg Except.ok hanswer

/-- A page is mapped and then remapped: its page number is taken for its address. -/
theorem remapped_page_differs : ∃ w, (machine x86PageTableOps).Reachable w ∧
    (w.func.call 12 (.translate 0x2000)).toOption.map Prod.fst = some (.address (some 0x5000)) ∧
    (w.multi.call x86PageTableOps (.translate 0x2000)).toOption.map Prod.fst =
      some (.address (some 0x5)) ∧
    MultiLevelPageTable.pnumOf x86PageTableOps w.multi.system w.multi.basePtr 0x2000 = none := by
  exact Machine.exists_run (step_of_move x86PageTableOps) (.start x86Start_init)
    [.map 0x1000 0x5000 0x1000 {}, .remap 0x1000 0x1000 0x2000] (by decide)

end PageTables

end Gem5.Mem
