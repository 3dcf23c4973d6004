import Gem5.Lib.Transition
import Gem5.Lib.Outcome
import Gem5.Lib.Ring

namespace Gem5.Mem

open Lib List Function Nat

/-! Page tables: the table of mappings and the three elements that are cached in front of it. -/

/-- A TLB entry, with the fields that the page tables set and read. -/
structure TlbEntry where
  paddr : Nat := 0
  vaddr : Nat := 0
  writable : Bool := false
  uncacheable : Bool := false
  deriving DecidableEq, Repr

namespace TlbEntry

/-- The constructor; the address space number is not kept. -/
def make (vaddr paddr : Nat) (uncacheable readOnly : Bool) : TlbEntry where
  paddr := paddr
  vaddr := vaddr
  writable := !readOnly
  uncacheable := uncacheable

def pageStart (e : TlbEntry) : Nat := e.paddr

def updateVaddr (e : TlbEntry) (newVaddr : Nat) : TlbEntry := { e with vaddr := newVaddr }

end TlbEntry

structure MappingFlags where
  clobber : Bool := false
  notPresent : Bool := false
  uncacheable : Bool := false
  readOnly : Bool := false
  deriving DecidableEq, Repr

inductive PageTableFault
  | unaligned
  | alreadyMapped
  | notMapped
  | outOfMemory
  | uninitialised
  deriving DecidableEq, Repr

/-! Pages. A page has `2 ^ pageShift` bytes; addresses have 64 bits. -/

def addrLimit : Nat := 2 ^ 64

variable (pageShift : Nat)

def pageSize : Nat := 2 ^ pageShift

def pageOffset (a : Nat) : Nat := a % pageSize pageShift

def pageAlign (a : Nat) : Nat := a - pageOffset pageShift a

def nextPage (a : Nat) : Nat := (a + pageSize pageShift) % addrLimit

/-- The rounds of a loop `for (; size > 0; size -= pageSize)`. -/
def pageCount (size : Int) : Nat := ((size + pageSize pageShift - 1) / pageSize pageShift).toNat

variable {pageShift}

theorem pageSize_pos : 0 < pageSize pageShift := Nat.two_pow_pos _

theorem pageCount_of_le {size : Int} (h : size ≤ 0) : pageCount pageShift size = 0 := by
  have hpos : (0 : Int) < pageSize pageShift := Int.natCast_pos.mpr pageSize_pos
  refine Int.toNat_of_nonpos ?_
  have hlt : (size + pageSize pageShift - 1) / pageSize pageShift < 1 :=
    Int.ediv_lt_of_lt_mul hpos (by omega)
  omega

def pageAt (pageShift a i : Nat) : Nat := (a + i * pageSize pageShift) % addrLimit

theorem pageAt_nextPage (a i : Nat) :
    pageAt pageShift (nextPage pageShift a) i = pageAt pageShift a (i + 1) := by
  unfold pageAt nextPage
  rw [mod_add_mod, add_assoc, add_comm (pageSize pageShift), ← succ_mul]

theorem pageAt_zero (h : a < addrLimit) : pageAt pageShift a 0 = a := by
  unfold pageAt
  rw [zero_mul, add_zero, mod_eq_of_lt h]

theorem nextPage_lt (a : Nat) : nextPage pageShift a < addrLimit :=
  Nat.mod_lt _ (Nat.two_pow_pos _)

theorem lt_of_lt_pageCount {size : Int} (h : i < pageCount pageShift size) :
    ((i * pageSize pageShift : Nat) : Int) < size := by
  have hpos : (0 : Int) < pageSize pageShift := Int.natCast_pos.mpr pageSize_pos
  have hle : ((i + 1 : Nat) : Int) ≤ (size + pageSize pageShift - 1) / pageSize pageShift := by
    unfold pageCount at h
    omega
  have hmul := (Int.le_ediv_iff_mul_le hpos).mp hle
  push_cast at hmul ⊢
  rw [add_mul] at hmul
  omega

theorem pageAt_ne {size : Int} (hsize : size < 2 ^ 63) (hij : i < j)
    (hj : j < pageCount pageShift size) : pageAt pageShift a i ≠ pageAt pageShift a j := by
  have hlt := lt_of_lt_pageCount hj
  have hmul : i * pageSize pageShift < j * pageSize pageShift :=
    mul_lt_mul_of_pos_right hij pageSize_pos
  refine Ring.mod_ne (by omega) ?_ ?_ <;> (unfold addrLimit; omega)

/-! The cached elements. -/

structure CacheElement where
  valid : Bool := false
  vaddr : Nat := 0
  entry : TlbEntry := {}
  deriving DecidableEq, Repr

/-- The cached entry of a page: the first element that is valid and has its address. -/
def cached (vaddr : Nat) : List CacheElement → Option TlbEntry
  | [] => none
  | c :: cs => if c.valid && c.vaddr == vaddr then some c.entry else cached vaddr cs

/-- The elements move on by one place, and the last one is lost. -/
def updateCache (cache : List CacheElement) (vaddr : Nat) (entry : TlbEntry) : List CacheElement :=
  { valid := true, vaddr, entry } :: cache.dropLast

/-- Only the first element with the address is invalidated. -/
def eraseCacheEntry (vaddr : Nat) : List CacheElement → List CacheElement
  | [] => []
  | c :: cs =>
    if c.valid && c.vaddr == vaddr then { c with valid := false } :: cs
    else c :: eraseCacheEntry vaddr cs

def OncePerPage (cache : List CacheElement) : Prop :=
  cache.Pairwise (fun c d => c.valid = true → d.valid = true → c.vaddr ≠ d.vaddr)

/-- The valid elements are what `table` has for their pages, as far as `view` tells, and no page is
cached twice. -/
structure Coherent (view : TlbEntry → β) (table : Nat → Option β) (cache : List CacheElement) :
    Prop where
  once : OncePerPage cache
  holds : ∀ c ∈ cache, c.valid = true → table c.vaddr = some (view c.entry)

section Cache

variable {view : TlbEntry → β} {table : Nat → Option β} {cache : List CacheElement} {vaddr : Nat}

/-- Nothing valid has the address. -/
def NotCached (vaddr : Nat) (cache : List CacheElement) : Prop :=
  ∀ c ∈ cache, c.valid = true → c.vaddr ≠ vaddr

instance (vaddr : Nat) (cache : List CacheElement) : Decidable (NotCached vaddr cache) :=
  inferInstanceAs (Decidable (∀ c ∈ cache, c.valid = true → c.vaddr ≠ vaddr))

theorem cached_eq_some (h : cached vaddr cache = some e) :
    ∃ c ∈ cache, c.valid = true ∧ c.vaddr = vaddr ∧ c.entry = e := by
  induction cache with
  | nil => cases h
  | cons c cs ih =>
    rw [cached] at h
    split_ifs at h with hc
    · rw [Bool.and_eq_true, beq_iff_eq] at hc
      exact ⟨c, .head _, hc.1, hc.2, Option.some.inj h⟩
    · obtain ⟨d, hd, hrest⟩ := ih h
      exact ⟨d, .tail _ hd, hrest⟩

theorem notCached_of_cached_eq_none (h : cached vaddr cache = none) : NotCached vaddr cache := by
  induction cache with
  | nil => exact forall_mem_nil _
  | cons c cs ih =>
    rw [cached] at h
    split_ifs at h with hc
    rintro d hd hvalid rfl
    rcases mem_cons.mp hd with rfl | hd
    · simp [hvalid] at hc
    · exact ih h d hd hvalid rfl

theorem mem_of_mem_eraseCacheEntry (hc : c ∈ eraseCacheEntry vaddr cache)
    (hvalid : c.valid = true) : c ∈ cache := by
  induction cache with
  | nil => cases hc
  | cons d ds ih =>
    rw [eraseCacheEntry] at hc
    split at hc
    · rcases mem_cons.mp hc with rfl | hc
      · cases hvalid
      · exact .tail _ hc
    · rcases mem_cons.mp hc with rfl | hc
      · exact .head _
      · exact .tail _ (ih hc)

theorem OncePerPage.erase (h : OncePerPage cache) : OncePerPage (eraseCacheEntry vaddr cache) := by
  unfold OncePerPage at *
  induction cache with
  | nil => exact .nil
  | cons c cs ih =>
    rw [pairwise_cons] at h
    rw [eraseCacheEntry]
    split
    · refine pairwise_cons.mpr ⟨fun d _ hvalid => ?_, h.2⟩
      cases hvalid
    · refine pairwise_cons.mpr ⟨fun d hd hvalid hvalid' => ?_, ih h.2⟩
      exact h.1 d (mem_of_mem_eraseCacheEntry hd hvalid') hvalid hvalid'

/-- Where a page is cached at most once, erasing the first element is enough. -/
theorem OncePerPage.notCached_erase (h : OncePerPage cache) :
    NotCached vaddr (eraseCacheEntry vaddr cache) := by
  unfold OncePerPage at h
  induction cache with
  | nil => exact forall_mem_nil _
  | cons c cs ih =>
    rw [pairwise_cons] at h
    rw [eraseCacheEntry]
    split_ifs with hc
    · rw [Bool.and_eq_true, beq_iff_eq] at hc
      intro d hd hvalid
      rcases mem_cons.mp hd with rfl | hd
      · cases hvalid
      · exact hc.2 ▸ (h.1 d hd hc.1 hvalid).symm
    · intro d hd hvalid
      rcases mem_cons.mp hd with rfl | hd
      · simpa [hvalid] using hc
      · exact ih h.2 d hd hvalid

theorem NotCached.erase (h : NotCached vaddr cache) : NotCached vaddr (eraseCacheEntry w cache) :=
  fun c hc hvalid => h c (mem_of_mem_eraseCacheEntry hc hvalid) hvalid

theorem NotCached.update (h : NotCached vaddr cache) (hne : w ≠ vaddr) :
    NotCached vaddr (updateCache cache w e) := by
  intro c hc hvalid
  rcases mem_cons.mp hc with rfl | hc
  · exact hne
  · exact h c (mem_of_mem_dropLast hc) hvalid

section

variable (h : Coherent view table cache)
include h

theorem Coherent.erase (vaddr : Nat) :
    Coherent view (update table vaddr none) (eraseCacheEntry vaddr cache) where
  once := h.once.erase
  holds c hc hvalid := by
    rw [update_of_ne (h.once.notCached_erase c hc hvalid)]
    exact h.holds c (mem_of_mem_eraseCacheEntry hc hvalid) hvalid

/-- A page that is not cached is put into the table and the cache. -/
theorem Coherent.insert (hno : NotCached vaddr cache) (e : TlbEntry) :
    Coherent view (update table vaddr (some (view e))) (updateCache cache vaddr e) where
  once := by
    refine pairwise_cons.mpr ⟨fun d hd _ hvalid => ?_, h.once.sublist (dropLast_sublist _)⟩
    exact (hno d (mem_of_mem_dropLast hd) hvalid).symm
  holds c hc hvalid := by
    rcases mem_cons.mp hc with rfl | hc
    · exact update_self _ _ _
    · have hmem := mem_of_mem_dropLast hc
      rw [update_of_ne (hno c hmem hvalid)]
      exact h.holds c hmem hvalid

theorem Coherent.fill (hno : NotCached vaddr cache)
    (he : table vaddr = some (view e)) : Coherent view table (updateCache cache vaddr e) := by
  have hins := h.insert hno e
  rwa [show update table vaddr (some (view e)) = table from
    he ▸ update_eq_self vaddr table] at hins

theorem Coherent.cached
    (hc : Gem5.Mem.cached vaddr cache = some e) : table vaddr = some (view e) := by
  obtain ⟨c, hmem, hvalid, rfl, rfl⟩ := cached_eq_some hc
  exact h.holds c hmem hvalid

end

theorem Coherent.empty (view : TlbEntry → β) (table : Nat → Option β) (n : Nat) :
    Coherent view table (List.replicate n {}) where
  once := by
    refine pairwise_replicate.mpr (.inr (fun hvalid => ?_))
    cases hvalid
  holds c hc hvalid := by
    rw [(mem_replicate.mp hc).2] at hvalid
    cases hvalid

end Cache

/-! The functional page table. -/

structure FuncPageTable where
  pTable : Nat → Option TlbEntry
  pTableCache : List CacheElement

namespace FuncPageTable

def initial : FuncPageTable where
  pTable := fun _ => none
  pTableCache := List.replicate 3 {}

section Operations

variable (pageShift : Nat)

def mapPages (flags : MappingFlags) :
    Nat → Nat → Nat → FuncPageTable → Except PageTableFault FuncPageTable
  | 0, _, _, t => .ok t
  | n + 1, vaddr, paddr, t =>
    if !flags.clobber && (t.pTable vaddr).isSome then .error .alreadyMapped
    else
      let entry := TlbEntry.make vaddr paddr flags.uncacheable flags.readOnly
      mapPages flags n (nextPage pageShift vaddr) (nextPage pageShift paddr)
        { pTable := Function.update t.pTable vaddr (some entry)
          pTableCache := updateCache (eraseCacheEntry vaddr t.pTableCache) vaddr entry }

def map (vaddr paddr : Nat) (size : Int) (flags : MappingFlags) (t : FuncPageTable) :
    Except PageTableFault FuncPageTable :=
  if pageOffset pageShift vaddr ≠ 0 then .error .unaligned
  else mapPages pageShift flags (pageCount pageShift size) vaddr paddr t

/-- The entry is copied before the old page is erased, and `pTable[new_vaddr]` is looked up again
afterwards: it is a new entry if both are the same page. -/
def remapPages : Nat → Nat → Nat → FuncPageTable → Except PageTableFault FuncPageTable
  | 0, _, _, t => .ok t
  | n + 1, vaddr, newVaddr, t =>
    match t.pTable vaddr with
    | none => .error .notMapped
    | some entry =>
      let moved := Function.update (Function.update t.pTable newVaddr (some entry)) vaddr none
      let entry := ((moved newVaddr).getD {}).updateVaddr newVaddr
      remapPages n (nextPage pageShift vaddr) (nextPage pageShift newVaddr)
        { pTable := Function.update moved newVaddr (some entry)
          pTableCache := updateCache (eraseCacheEntry vaddr t.pTableCache) newVaddr entry }

def remap (vaddr : Nat) (size : Int) (newVaddr : Nat) (t : FuncPageTable) :
    Except PageTableFault FuncPageTable :=
  if pageOffset pageShift vaddr ≠ 0 ∨ pageOffset pageShift newVaddr ≠ 0 then .error .unaligned
  else remapPages pageShift (pageCount pageShift size) vaddr newVaddr t

def unmapPages : Nat → Nat → FuncPageTable → Except PageTableFault FuncPageTable
  | 0, _, t => .ok t
  | n + 1, vaddr, t =>
    if (t.pTable vaddr).isNone then .error .notMapped
    else
      unmapPages n (nextPage pageShift vaddr)
        { pTable := Function.update t.pTable vaddr none
          pTableCache := eraseCacheEntry vaddr t.pTableCache }

def unmap (vaddr : Nat) (size : Int) (t : FuncPageTable) : Except PageTableFault FuncPageTable :=
  if pageOffset pageShift vaddr ≠ 0 then .error .unaligned
  else unmapPages pageShift (pageCount pageShift size) vaddr t

def pagesUnmapped (t : FuncPageTable) : Nat → Nat → Bool
  | 0, _ => true
  | n + 1, vaddr =>
    if (t.pTable vaddr).isSome then false else pagesUnmapped t n (nextPage pageShift vaddr)

def isUnmapped (vaddr : Nat) (size : Int) (t : FuncPageTable) : Except PageTableFault Bool :=
  if pageOffset pageShift vaddr ≠ 0 then .error .unaligned
  else .ok (pagesUnmapped pageShift t (pageCount pageShift size) vaddr)

def lookup (vaddr : Nat) (t : FuncPageTable) : Option TlbEntry × FuncPageTable :=
  let page := pageAlign pageShift vaddr
  match cached page t.pTableCache with
  | some entry => (some entry, t)
  | none =>
    match t.pTable page with
    | none => (none, t)
    | some entry => (some entry, { t with pTableCache := updateCache t.pTableCache page entry })

def translate (vaddr : Nat) (t : FuncPageTable) : Option Nat × FuncPageTable :=
  let (entry, t) := lookup pageShift vaddr t
  (entry.map (fun entry => pageOffset pageShift vaddr + entry.pageStart), t)

end Operations

/-! Runs. -/

inductive Move
  | map (vaddr paddr : Nat) (size : Int) (flags : MappingFlags)
  | remap (vaddr : Nat) (size : Int) (newVaddr : Nat)
  | unmap (vaddr : Nat) (size : Int)
  | lookup (vaddr : Nat)

/-- Addresses are of 64 bits, and sizes are signed numbers of 64 bits. -/
def InRange : Move → Prop
  | .map vaddr paddr size _ => vaddr < addrLimit ∧ paddr < addrLimit ∧ size < 2 ^ 63
  | .remap vaddr size newVaddr => vaddr < addrLimit ∧ newVaddr < addrLimit ∧ size < 2 ^ 63
  | .unmap vaddr size => vaddr < addrLimit ∧ size < 2 ^ 63
  | .lookup vaddr => vaddr < addrLimit

instance (m : Move) : Decidable (InRange m) := by
  cases m <;> unfold InRange <;> infer_instance

def apply (pageShift : Nat) (t : FuncPageTable) : Move → Except PageTableFault FuncPageTable
  | .map vaddr paddr size flags => map pageShift vaddr paddr size flags t
  | .remap vaddr size newVaddr => remap pageShift vaddr size newVaddr t
  | .unmap vaddr size => unmap pageShift vaddr size t
  | .lookup vaddr => .ok (lookup pageShift vaddr t).2

def move (pageShift : Nat) (t : FuncPageTable) (m : Move) : Option FuncPageTable :=
  if InRange m then (apply pageShift t m).toOption else none

def machine (pageShift : Nat) : Machine FuncPageTable Move where
  init t := t = initial
  step t m t' := InRange m ∧ apply pageShift t m = .ok t'

theorem step_of_move (pageShift : Nat) (t : FuncPageTable) (m : Move) (t' : FuncPageTable)
    (h : move pageShift t m = some t') : (machine pageShift).step t m t' := by
  obtain ⟨hin, h⟩ := Option.ite_none_right_eq_some.mp h
  exact ⟨hin, toOption_eq_some.mp h⟩

/-- No page that is cached is the target of a `remap`. -/
def RemapsUncached (pageShift : Nat) (t : FuncPageTable) : Move → Prop
  | .remap _ size newVaddr => ∀ i, i < pageCount pageShift size →
      NotCached (pageAt pageShift newVaddr i) t.pTableCache
  | _ => True

instance (t : FuncPageTable) (m : Move) : Decidable (RemapsUncached pageShift t m) := by
  cases m <;> unfold RemapsUncached <;> infer_instance

/-! The cache stays coherent. -/

/-- The cached elements are those of the table. -/
def CacheCoherent (t : FuncPageTable) : Prop := Coherent id t.pTable t.pTableCache

variable {t : FuncPageTable}

theorem mapPages_coherent (h : CacheCoherent t) :
    Meets (mapPages pageShift flags n vaddr paddr t) (fun _ => True) CacheCoherent := by
  induction n generalizing vaddr paddr t with
  | zero => exact .ok h
  | succ n ih =>
    unfold mapPages
    split
    · exact .error trivial
    · refine ih ?_
      have hins := (h.erase vaddr).insert h.once.notCached_erase
        (TlbEntry.make vaddr paddr flags.uncacheable flags.readOnly)
      rwa [update_idem] at hins

theorem unmapPages_coherent (h : CacheCoherent t) :
    Meets (unmapPages pageShift n vaddr t) (fun _ => True) CacheCoherent := by
  induction n generalizing vaddr t with
  | zero => exact .ok h
  | succ n ih =>
    unfold unmapPages
    split
    · exact .error trivial
    · exact ih (h.erase vaddr)

theorem lookup_coherent (h : CacheCoherent t) :
    (lookup pageShift vaddr t).1 = t.pTable (pageAlign pageShift vaddr) ∧
      CacheCoherent (lookup pageShift vaddr t).2 := by
  unfold lookup
  dsimp only
  split
  · rename_i entry hcached
    exact ⟨(h.cached hcached).symm, h⟩
  rename_i hcached
  split
  · rename_i hnone
    exact ⟨hnone.symm, h⟩
  · rename_i entry hsome
    exact ⟨hsome.symm, h.fill (notCached_of_cached_eq_none hcached) hsome⟩

theorem remapPages_coherent (h : CacheCoherent t) (hlt : newVaddr < addrLimit)
    (hno : ∀ i, i < n → NotCached (pageAt pageShift newVaddr i) t.pTableCache)
    (hne : ∀ i j, i < j → j < n → pageAt pageShift newVaddr i ≠ pageAt pageShift newVaddr j) :
    Meets (remapPages pageShift n vaddr newVaddr t) (fun _ => True) CacheCoherent := by
  induction n generalizing vaddr newVaddr t with
  | zero => exact .ok h
  | succ n ih =>
    have hfirst : NotCached newVaddr (eraseCacheEntry vaddr t.pTableCache) := by
      have hzero := hno 0 (succ_pos n)
      rw [pageAt_zero hlt] at hzero
      exact hzero.erase
    unfold remapPages
    split
    · exact .error trivial
    rename_i entry hentry
    refine ih ?_ (nextPage_lt _) (fun i hi => ?_) (fun i j hij hj => ?_)
    · -- the table between the two updates is the old one without the page
      generalize ((update (update t.pTable newVaddr (some entry)) vaddr none
        newVaddr).getD {}).updateVaddr newVaddr = moved
      have hins := (h.erase vaddr).insert hfirst moved
      obtain rfl | hsame := eq_or_ne newVaddr vaddr
      · simp only [update_idem] at hins ⊢
        exact hins
      · rwa [update_comm hsame, update_idem]
    · rw [pageAt_nextPage]
      refine (hno (i + 1) (by omega)).erase.update ?_
      have hdiff := hne 0 (i + 1) (succ_pos i) (by omega)
      rwa [pageAt_zero hlt] at hdiff
    · rw [pageAt_nextPage, pageAt_nextPage]
      exact hne (i + 1) (j + 1) (by omega) (by omega)

theorem apply_coherent (h : CacheCoherent t) (hin : InRange m)
    (hcond : RemapsUncached pageShift t m) :
    Meets (apply pageShift t m) (fun _ => True) CacheCoherent := by
  cases m with
  | map vaddr paddr size flags =>
    change Meets (map pageShift vaddr paddr size flags t) _ _
    unfold map
    split
    · exact .error trivial
    · exact mapPages_coherent h
  | remap vaddr size newVaddr =>
    change Meets (remap pageShift vaddr size newVaddr t) _ _
    unfold remap
    split
    · exact .error trivial
    · exact remapPages_coherent h hin.2.1 hcond (fun i j hij hj => pageAt_ne hin.2.2 hij hj)
  | unmap vaddr size =>
    change Meets (unmap pageShift vaddr size t) _ _
    unfold unmap
    split
    · exact .error trivial
    · exact unmapPages_coherent h
  | lookup vaddr => exact .ok (lookup_coherent h).2

/-- While no cached page is the target of a `remap`, what is cached is what the table has, and
`lookup` finds what the table has. -/
theorem lookup_agrees_with_table
    (h : ((machine pageShift).restrict (RemapsUncached pageShift)).Reachable t) :
    (∀ c ∈ t.pTableCache, c.valid = true → t.pTable c.vaddr = some c.entry) ∧
      ∀ vaddr, (lookup pageShift vaddr t).1 = t.pTable (pageAlign pageShift vaddr) := by
  have hcoherent : CacheCoherent t := by
    refine h.invariant (fun t ht => ?_) (fun t m t' ht hstep => ?_)
    · rw [show t = initial from ht]
      exact Coherent.empty _ _ 3
    · exact (apply_coherent ht hstep.1.1 hstep.2).of_ok hstep.1.2
  exact ⟨hcoherent.holds, fun vaddr => (lookup_coherent hcoherent).1⟩

/-- A page is moved, and the other one is found through the cache. -/
theorem lookup_agrees_with_table_moved :
    ∃ t, ((machine 12).restrict (RemapsUncached 12)).Reachable t ∧
      (lookup 12 0x3004 t).1 = t.pTable 0x3000 ∧ (t.pTable 0x3000).isSome = true := by
  obtain ⟨t, ht, hP⟩ := Machine.exists_run
    (Machine.restrict_step (step_of_move 12) (RemapsUncached 12)) (.start rfl)
    [.map 0x1000 0x5000 0x2000 {}, .remap 0x1000 0x1000 0x3000, .lookup 0x2008]
    (P := fun t => (t.pTable 0x3000).isSome) (by decide)
  exact ⟨t, ht, (lookup_agrees_with_table ht).2 0x3004, hP⟩

/-- A page that is cached is the target of a `remap`, and is then unmapped: the element that the
`remap` has left in the cache is found. -/
theorem stale_element_found : ∃ t, (machine 12).Reachable t ∧ t.pTable 0x2000 = none ∧
    ((lookup 12 0x2000 t).1.map TlbEntry.pageStart) = some 0x6000 := by
  exact Machine.exists_run (step_of_move 12) (.start rfl) [.map 0x1000 0x5000 0x1000 {},
      .map 0x2000 0x6000 0x1000 {}, .remap 0x1000 0x1000 0x2000, .unmap 0x2000 0x1000] (by decide)

end FuncPageTable

end Gem5.Mem
