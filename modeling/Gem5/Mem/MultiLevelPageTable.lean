import Gem5.Lib.Radix
import Gem5.Mem.PageTable

namespace Gem5.Mem

open Lib List Function Radix Nat

/-! The architectural page table: a tree of tables in physical memory. -/

structure PTEFlags where
  notPresent : Bool := false
  uncacheable : Bool := false
  readOnly : Bool := false
  deriving DecidableEq, Repr

/-- The operations of an instruction set on its page table entries, and the layout of its tables.
`virtualLimit` bounds the addresses that `getOffsets` tells apart, and `pnumLimit` the page numbers
that an entry can hold. `zero` is what memory filled with zeros is read as. -/
structure PageTableOps (PTE : Type) where
  pageShift : Nat
  logEntrySize : Nat
  logLevelSize : List Nat
  virtualLimit : Nat
  pnumLimit : Nat
  zero : PTE
  getOffsets : Nat → List Nat
  getPnum : PTE → Nat
  setPnum : PTE → Nat → PTE
  setPTEFields : PTE → PTEFlags → PTE
  isUncacheable : PTE → Bool
  isReadOnly : PTE → Bool
  virtualLimit_le : virtualLimit ≤ addrLimit
  pnumLimit_le : pnumLimit * pageSize pageShift ≤ addrLimit
  pnumLimit_pos : 0 < pnumLimit
  levels : logLevelSize ≠ []
  /-- The assertion `log_req_size >= PageShift`. -/
  wide : ∀ l ∈ logLevelSize, pageShift ≤ logEntrySize + l
  offsets_length : ∀ v, (getOffsets v).length = logLevelSize.length
  offsets_lt : ∀ v i, i < logLevelSize.length → (getOffsets v).getD i 0 < 2 ^ logLevelSize.getD i 0
  offsets_inj : ∀ v w, v < virtualLimit → w < virtualLimit → v % 2 ^ pageShift = 0 →
    w % 2 ^ pageShift = 0 → getOffsets v = getOffsets w → v = w
  getPnum_zero : getPnum zero = 0
  getPnum_setPnum : ∀ e p, p < pnumLimit → getPnum (setPnum e p) = p
  getPnum_setPTEFields : ∀ e f, getPnum (setPTEFields e f) = getPnum e

/-- Physical memory, of `memPages` pages, and the next page that has not been given out. -/
structure System (PTE : Type) where
  mem : Nat → PTE
  pagePtr : Nat
  memPages : Nat

structure MultiLevelPageTable (PTE : Type) where
  system : System PTE
  basePtr : Nat
  pTableCache : List CacheElement

namespace MultiLevelPageTable

variable {PTE : Type} (ops : PageTableOps PTE)

/-- Memory ends below the region of the m5ops at 0xffff0000: a page in that region is then as fatal
as one beyond the memory. -/
def allocPhysPages (npages : Nat) (s : System PTE) : Except PageTableFault (Nat × System PTE) :=
  if s.memPages < s.pagePtr + npages then .error .outOfMemory
  else .ok (s.pagePtr <<< ops.pageShift, { s with pagePtr := s.pagePtr + npages })

def memsetBlob (addr len : Nat) (s : System PTE) : System PTE :=
  { s with mem := fun x => if addr ≤ x ∧ x < addr + len then ops.zero else s.mem x }

def write (addr : Nat) (entry : PTE) (s : System PTE) : System PTE :=
  { s with mem := Function.update s.mem addr entry }

def entryAddr (levelBase offset : Nat) : Nat :=
  levelBase <<< ops.pageShift + offset * 2 ^ ops.logEntrySize

/-- The pages of a table of a level, where the leaves are at level 0. -/
def tablePages (level : Nat) : Nat :=
  2 ^ (ops.logEntrySize + ops.logLevelSize.getD level 0 - ops.pageShift)

/-- The tables are at `basePtr`, which is not page 0. -/
def initState (basePtr : Nat) (s : System PTE) :
    Except PageTableFault (MultiLevelPageTable PTE) := do
  let basePtr := if basePtr = 0 then basePtr + 1 else basePtr
  let npages := tablePages ops (ops.logLevelSize.length - 1)
  let (paddr, s) ← allocPhysPages ops npages { s with pagePtr := basePtr }
  .ok
    { system := memsetBlob ops paddr (npages <<< ops.pageShift) s
      basePtr
      pTableCache := List.replicate 3 {} }

def walkLevels (offsets : List Nat) (allocate : Bool) :
    Nat → Nat → System PTE → Except PageTableFault (Option Nat × System PTE)
  | 0, levelBase, s => .ok (some levelBase, s)
  | i + 1, levelBase, s =>
    let addr := entryAddr ops levelBase (offsets.getD (i + 1) 0)
    let entry := s.mem addr
    let pnum := ops.getPnum entry
    if pnum = 0 then
      if allocate then do
        let npages := tablePages ops i
        let (paddr, s) ← allocPhysPages ops npages s
        let pnum := paddr >>> ops.pageShift
        let entry := ops.setPTEFields (ops.setPnum entry pnum) {}
        walkLevels offsets allocate i pnum
          (write addr entry (memsetBlob ops paddr (npages <<< ops.pageShift) s))
      else .ok (none, s)
    else walkLevels offsets allocate i pnum s

/-- The address of the entry of a page, if there is a table for it. -/
def walk (vaddr : Nat) (allocate : Bool) (t : MultiLevelPageTable PTE) :
    Except PageTableFault (Option Nat × MultiLevelPageTable PTE) := do
  let offsets := ops.getOffsets vaddr
  let (leaf, s) ← walkLevels ops offsets allocate (ops.logLevelSize.length - 1) t.basePtr t.system
  .ok (leaf.map (fun base => entryAddr ops base (offsets.getD 0 0)), { t with system := s })

def pteFlags (flags : MappingFlags) : PTEFlags where
  notPresent := flags.notPresent
  uncacheable := flags.uncacheable
  readOnly := flags.readOnly

def mapPages (flags : MappingFlags) : Nat → Nat → Nat → MultiLevelPageTable PTE →
    Except PageTableFault (MultiLevelPageTable PTE)
  | 0, _, _, t => .ok t
  | n + 1, vaddr, paddr, t => do
    let (pteAddr, t) ← walk ops vaddr true t
    match pteAddr with
    | none => mapPages flags n (nextPage ops.pageShift vaddr) (nextPage ops.pageShift paddr) t
    | some addr =>
      let pte := t.system.mem addr
      if !flags.clobber && ops.getPnum pte != 0 then .error .alreadyMapped
      else
        let pte := ops.setPTEFields (ops.setPnum pte (paddr >>> ops.pageShift)) (pteFlags flags)
        let entry := TlbEntry.make vaddr paddr flags.uncacheable flags.readOnly
        mapPages flags n (nextPage ops.pageShift vaddr) (nextPage ops.pageShift paddr)
          { t with
            system := write addr pte t.system
            pTableCache := updateCache (eraseCacheEntry vaddr t.pTableCache) vaddr entry }

def map (vaddr paddr : Nat) (size : Int) (flags : MappingFlags) (t : MultiLevelPageTable PTE) :
    Except PageTableFault (MultiLevelPageTable PTE) :=
  if pageOffset ops.pageShift vaddr ≠ 0 then .error .unaligned
  else mapPages ops flags (pageCount ops.pageShift size) vaddr paddr t

/-- The page number that the old entry holds is called `paddr`, and is shifted as an address is. -/
def remapPages : Nat → Nat → Nat → MultiLevelPageTable PTE →
    Except PageTableFault (MultiLevelPageTable PTE)
  | 0, _, _, t => .ok t
  | n + 1, vaddr, newVaddr, t => do
    let (pteAddr, t) ← walk ops vaddr false t
    match pteAddr with
    | none => .error .notMapped
    | some addr =>
      let pte := t.system.mem addr
      let paddr := ops.getPnum pte
      if paddr = 0 then .error .notMapped
      else do
        let pte := ops.setPnum pte 0
        let (newAddr, t) ← walk ops newVaddr true { t with system := write addr pte t.system }
        match newAddr with
        | none => .error .uninitialised
        | some newAddr =>
          let newPte := ops.setPTEFields
            (ops.setPnum (t.system.mem newAddr) (paddr >>> ops.pageShift)) {}
          let entry := TlbEntry.make newVaddr paddr (ops.isUncacheable pte) (ops.isReadOnly pte)
          remapPages n (nextPage ops.pageShift vaddr) (nextPage ops.pageShift newVaddr)
            { t with
              system := write newAddr newPte t.system
              pTableCache := updateCache (eraseCacheEntry vaddr t.pTableCache) newVaddr entry }

def remap (vaddr : Nat) (size : Int) (newVaddr : Nat) (t : MultiLevelPageTable PTE) :
    Except PageTableFault (MultiLevelPageTable PTE) :=
  if pageOffset ops.pageShift vaddr ≠ 0 ∨ pageOffset ops.pageShift newVaddr ≠ 0 then
    .error .unaligned
  else remapPages ops (pageCount ops.pageShift size) vaddr newVaddr t

def unmapPages : Nat → Nat → MultiLevelPageTable PTE →
    Except PageTableFault (MultiLevelPageTable PTE)
  | 0, _, t => .ok t
  | n + 1, vaddr, t => do
    let (pteAddr, t) ← walk ops vaddr false t
    match pteAddr with
    | none => .error .notMapped
    | some addr =>
      let pte := t.system.mem addr
      if ops.getPnum pte = 0 then .error .notMapped
      else
        unmapPages n (nextPage ops.pageShift vaddr)
          { t with
            system := write addr (ops.setPnum pte 0) t.system
            pTableCache := eraseCacheEntry vaddr t.pTableCache }

def unmap (vaddr : Nat) (size : Int) (t : MultiLevelPageTable PTE) :
    Except PageTableFault (MultiLevelPageTable PTE) :=
  if pageOffset ops.pageShift vaddr ≠ 0 then .error .unaligned
  else unmapPages ops (pageCount ops.pageShift size) vaddr t

def pagesUnmapped : Nat → Nat → MultiLevelPageTable PTE →
    Except PageTableFault (Bool × MultiLevelPageTable PTE)
  | 0, _, t => .ok (true, t)
  | n + 1, vaddr, t => do
    let (pteAddr, t) ← walk ops vaddr false t
    match pteAddr with
    | none => pagesUnmapped n (nextPage ops.pageShift vaddr) t
    | some addr =>
      if ops.getPnum (t.system.mem addr) ≠ 0 then .ok (false, t)
      else pagesUnmapped n (nextPage ops.pageShift vaddr) t

def isUnmapped (vaddr : Nat) (size : Int) (t : MultiLevelPageTable PTE) :
    Except PageTableFault (Bool × MultiLevelPageTable PTE) :=
  if pageOffset ops.pageShift vaddr ≠ 0 then .error .unaligned
  else pagesUnmapped ops (pageCount ops.pageShift size) vaddr t

def lookup (vaddr : Nat) (t : MultiLevelPageTable PTE) :
    Except PageTableFault (Option TlbEntry × MultiLevelPageTable PTE) :=
  let page := pageAlign ops.pageShift vaddr
  match cached page t.pTableCache with
  | some entry => .ok (some entry, t)
  | none => do
    let (pteAddr, t) ← walk ops page false t
    match pteAddr with
    | none => .ok (none, t)
    | some addr =>
      let pte := t.system.mem addr
      let pnum := ops.getPnum pte
      if pnum = 0 then .ok (none, t)
      else
        let entry := TlbEntry.make vaddr (pnum <<< ops.pageShift) (ops.isUncacheable pte)
          (ops.isReadOnly pte)
        .ok (some entry, { t with pTableCache := updateCache t.pTableCache page entry })

def translate (vaddr : Nat) (t : MultiLevelPageTable PTE) :
    Except PageTableFault (Option Nat × MultiLevelPageTable PTE) := do
  let (entry, t) ← lookup ops vaddr t
  .ok (entry.map (fun entry => pageOffset ops.pageShift vaddr + entry.pageStart), t)

/-! The tables as a tree. The root is at depth 0, and level `i` of the source is at depth
`numLevels - 1 - i`. -/

def levelAt (k : Nat) : Nat := ops.logLevelSize.length - 1 - k

theorem tablePages_mul (h : level < ops.logLevelSize.length) :
    tablePages ops level * 2 ^ ops.pageShift =
      2 ^ ops.logLevelSize.getD level 0 * 2 ^ ops.logEntrySize := by
  have hwide : ops.pageShift ≤ ops.logEntrySize + ops.logLevelSize.getD level 0 := by
    refine ops.wide _ ?_
    rw [getD_eq_getElem _ _ h]
    exact getElem_mem h
  unfold tablePages
  rw [← pow_add, ← pow_add]
  congr 1
  omega

theorem entryAddr_eq (base offset : Nat) :
    entryAddr ops base offset = base * 2 ^ ops.pageShift + offset * 2 ^ ops.logEntrySize := by
  unfold entryAddr
  rw [shiftLeft_eq]

/-- The tree that the entries make up. -/
def shape : Radix.Shape PTE where
  depth := ops.logLevelSize.length - 1
  fits k := if k < ops.logLevelSize.length then 2 ^ ops.logLevelSize.getD (levelAt ops k) 0 else 0
  slot := entryAddr ops
  own a k x := a * 2 ^ ops.pageShift ≤ x ∧
    x < (a + tablePages ops (levelAt ops k)) * 2 ^ ops.pageShift
  next entry := if ops.getPnum entry = 0 then none else some (ops.getPnum entry)
  slot_own {a k o} h := by
    split_ifs at h with hk
    · have hlevel : levelAt ops k < ops.logLevelSize.length := by
        unfold levelAt
        omega
      have hmul := Nat.mul_lt_mul_of_pos_right h (Nat.two_pow_pos ops.logEntrySize)
      rw [← tablePages_mul ops hlevel] at hmul
      rw [entryAddr_eq, Nat.add_mul]
      exact ⟨Nat.le_add_right _ _, Nat.add_lt_add_left hmul _⟩
    · cases h
  slot_inj {a o p} h := by
    rw [entryAddr_eq, entryAddr_eq] at h
    exact Nat.eq_of_mul_eq_mul_right (Nat.two_pow_pos ops.logEntrySize) (Nat.add_left_cancel h)

/-- The offsets of the levels from `i` on, from the root down: the way to the table of the level
below `i`, and for `i = 0` to the entry of the page. -/
def pathFrom (vaddr i : Nat) : List Nat := ((ops.getOffsets vaddr).drop i).reverse

/-- What the tables hold for a page. -/
def pnumOf (s : System PTE) (root vaddr : Nat) : Option Nat :=
  Radix.table (shape ops) s.mem root (pathFrom ops vaddr 0)

variable {ops} {s : System PTE} {root : Nat}

theorem levels_pos : 0 < ops.logLevelSize.length := length_pos_iff.mpr ops.levels

theorem pathFrom_length (vaddr i : Nat) :
    (pathFrom ops vaddr i).length = ops.logLevelSize.length - i := by
  unfold pathFrom
  rw [length_reverse, length_drop, ops.offsets_length]

theorem pathFrom_end (vaddr : Nat) : pathFrom ops vaddr ops.logLevelSize.length = [] :=
  eq_nil_of_length_eq_zero (by rw [pathFrom_length, Nat.sub_self])

theorem pathFrom_succ (vaddr : Nat) (h : i < ops.logLevelSize.length) :
    pathFrom ops vaddr i = pathFrom ops vaddr (i + 1) ++ [(ops.getOffsets vaddr).getD i 0] := by
  have hlt : i < (ops.getOffsets vaddr).length := by rwa [ops.offsets_length]
  unfold pathFrom
  rw [drop_eq_getElem_cons hlt, reverse_cons, getD_eq_getElem _ _ hlt]

theorem offset_fits (vaddr : Nat) (h : i < ops.logLevelSize.length) :
    (ops.getOffsets vaddr).getD i 0 < (shape ops).fits (pathFrom ops vaddr (i + 1)).length := by
  have hlevel : levelAt ops (pathFrom ops vaddr (i + 1)).length = i := by
    unfold levelAt
    rw [pathFrom_length]
    omega
  change _ < if _ then 2 ^ ops.logLevelSize.getD (levelAt ops _) 0 else 0
  rw [if_pos (by rw [pathFrom_length]; omega), hlevel]
  exact ops.offsets_lt vaddr i h

theorem pathFrom_valid (vaddr : Nat) (h : i ≤ ops.logLevelSize.length) :
    Valid (shape ops) (pathFrom ops vaddr i) := by
  induction h using decreasingInduction with
  | self =>
    rw [pathFrom_end]
    exact valid_nil
  | of_succ i hlt ih =>
    rw [pathFrom_succ vaddr hlt]
    exact valid_snoc.mpr ⟨ih, offset_fits vaddr hlt⟩

theorem pathFrom_inj (hv : v < ops.virtualLimit) (hw : w < ops.virtualLimit)
    (hva : v % 2 ^ ops.pageShift = 0) (hwa : w % 2 ^ ops.pageShift = 0)
    (h : pathFrom ops v 0 = pathFrom ops w 0) : v = w := by
  refine ops.offsets_inj v w hv hw hva hwa ?_
  unfold pathFrom at h
  rw [drop_zero, drop_zero] at h
  exact reverse_injective h

/-! The tables are apart from each other, and below the pages that have not been given out. -/

structure Sound (ops : PageTableOps PTE) (root : Nat) (s : System PTE) : Prop where
  separate : Radix.Separate (shape ops) s.mem root
  below : ∀ p a, Radix.Valid (shape ops) p → p.length ≤ (shape ops).depth →
    Radix.table (shape ops) s.mem root p = some a →
    a + tablePages ops (levelAt ops p.length) ≤ s.pagePtr
  positive : 0 < s.pagePtr
  limit : s.memPages ≤ ops.pnumLimit

theorem tablePages_pos (level : Nat) : 0 < tablePages ops level := Nat.two_pow_pos _

theorem Sound.own_lt (h : Sound ops root s) (hp : Valid (shape ops) p)
    (hlen : p.length ≤ (shape ops).depth)
    (ha : table (shape ops) s.mem root p = some a) (hx : (shape ops).own a p.length x) :
    x < s.pagePtr * 2 ^ ops.pageShift :=
  hx.2.trans_le (mul_le_mul_right _ (h.below p a hp hlen ha))

theorem child_eq_none :
    child (shape ops) mem a o = none ↔ ops.getPnum (mem (entryAddr ops a o)) = 0 := by
  change (if ops.getPnum (mem (entryAddr ops a o)) = 0 then none else some _) = none ↔ _
  split_ifs with hzero
  · exact ⟨fun _ => hzero, fun _ => rfl⟩
  · exact ⟨nofun, fun heq => absurd heq hzero⟩

theorem child_eq_some (h : ops.getPnum (mem (entryAddr ops a o)) ≠ 0) :
    child (shape ops) mem a o = some (ops.getPnum (mem (entryAddr ops a o))) :=
  if_neg h

section Grow

variable {p : List Nat} {a o : Nat}

/-- The memory in which an empty entry refers to a new table. -/
def grown (ops : PageTableOps PTE) (s : System PTE) (a o npages : Nat) : System PTE :=
  write (entryAddr ops a o)
    (ops.setPTEFields (ops.setPnum (s.mem (entryAddr ops a o)) s.pagePtr) {})
    (memsetBlob ops (s.pagePtr <<< ops.pageShift) (npages <<< ops.pageShift)
      { s with pagePtr := s.pagePtr + npages })

section

variable (h : Sound ops root s) (hp : Radix.Valid (shape ops) p)
  (hlen : p.length < (shape ops).depth) (ha : Radix.table (shape ops) s.mem root p = some a)
  (ho : o < (shape ops).fits p.length) (hempty : ops.getPnum (s.mem (entryAddr ops a o)) = 0)
  (hroom : s.pagePtr + tablePages ops (levelAt ops (p.length + 1)) ≤ s.memPages)
include h hp hlen ha ho hempty hroom

theorem grown_written : Written (shape ops) s.mem
      (grown ops s a o (tablePages ops (levelAt ops (p.length + 1)))).mem root p a o ∧
    child (shape ops) (grown ops s a o (tablePages ops (levelAt ops (p.length + 1)))).mem a o =
      some s.pagePtr := by
  generalize hn : tablePages ops (levelAt ops (p.length + 1)) = npages at *
  have hpos : 0 < npages := hn ▸ tablePages_pos _
  have hlimit := h.limit
  have hentry : entryAddr ops a o < s.pagePtr * 2 ^ ops.pageShift :=
    h.own_lt hp hlen.le ha ((shape ops).slot_own ho)
  have hmem : ∀ x, x ≠ entryAddr ops a o → (grown ops s a o npages).mem x =
      if s.pagePtr * 2 ^ ops.pageShift ≤ x ∧ x < (s.pagePtr + npages) * 2 ^ ops.pageShift
      then ops.zero else s.mem x := by
    intro x hx
    refine (update_of_ne hx _ _).trans ?_
    unfold memsetBlob
    rw [shiftLeft_eq, shiftLeft_eq, add_mul]
  have hat : (grown ops s a o npages).mem (entryAddr ops a o) =
      ops.setPTEFields (ops.setPnum (s.mem (entryAddr ops a o)) s.pagePtr) {} :=
    update_self _ _ _
  have hpnum : ops.getPnum ((grown ops s a o npages).mem (entryAddr ops a o)) = s.pagePtr := by
    rw [hat, ops.getPnum_setPTEFields, ops.getPnum_setPnum _ _ (by omega)]
  have hchild : child (shape ops) (grown ops s a o npages).mem a o = some s.pagePtr := by
    rw [child_eq_some (by rw [hpnum]; exact h.positive.ne'), hpnum]
  refine ⟨⟨hp, hlen.le, ha, ho, fun q b x hq hql hb hx hne => ?_, fun _ => child_eq_none.mpr hempty,
    fun _ b hb o' ho' => ?_⟩, hchild⟩
  · have hlt := h.own_lt hq hql hb hx
    rw [hmem x hne, if_neg (fun hin => absurd hin.1 (Nat.not_le_of_lt hlt))]
  · cases hchild.symm.trans hb
    have hown := (shape ops).slot_own (a := s.pagePtr) ho'
    have hin : s.pagePtr * 2 ^ ops.pageShift ≤ entryAddr ops s.pagePtr o' ∧
        entryAddr ops s.pagePtr o' < (s.pagePtr + npages) * 2 ^ ops.pageShift := hn ▸ hown
    rw [child_eq_none, hmem _ (by omega), if_pos hin, ops.getPnum_zero]

theorem grown_sound :
    Sound ops root (grown ops s a o (tablePages ops (levelAt ops (p.length + 1)))) ∧
    table (shape ops) (grown ops s a o (tablePages ops (levelAt ops (p.length + 1)))).mem root
      (p ++ [o]) = some s.pagePtr ∧
    ∀ w, pnumOf ops (grown ops s a o (tablePages ops (levelAt ops (p.length + 1)))) root w =
      pnumOf ops s root w := by
  obtain ⟨hw, hchild⟩ := grown_written h hp hlen ha ho hempty hroom
  have hsnoc : Valid (shape ops) (p ++ [o]) := valid_snoc.mpr ⟨hp, ho⟩
  have hlast : (p ++ [o]).length = p.length + 1 := by simp
  refine ⟨⟨?_, fun q b hq hql hb => ?_, ?_, h.limit⟩, ?_, fun w => ?_⟩
  · refine hw.separate h.separate (fun _ b hb q c x hq hql hc hx hx' => ?_)
    cases hchild.symm.trans hb
    exact absurd (h.own_lt hq hql hc hx) (Nat.not_lt_of_le hx'.1)
  · rw [hw.table_eq h.separate hq (by omega)] at hb
    split_ifs at hb with heq
    · cases hchild.symm.trans hb
      rw [heq, hlast]
      exact le_rfl
    · exact (h.below q b hq hql hb).trans (le_add_right _ _)
  · exact h.positive.trans_le (le_add_right _ _)
  · rw [hw.table_eq h.separate hsnoc (by omega), if_pos rfl, hchild]
  · have hdepth : (shape ops).depth = ops.logLevelSize.length - 1 := rfl
    have hlevels : 0 < ops.logLevelSize.length := levels_pos
    have hlength : (pathFrom ops w 0).length = _ := pathFrom_length w 0
    unfold pnumOf
    rw [hw.table_eq h.separate (pathFrom_valid w (zero_le _)) (by omega), if_neg]
    intro heq
    have := congrArg List.length heq
    omega

end

end Grow

/-! Walks. -/

theorem table_append_none (q : List Nat) (h : table (shape ops) mem root p = none) :
    table (shape ops) mem root (p ++ q) = none := by
  unfold table at *
  rw [foldlM_append, h]
  rfl

/-- Without allocation a walk changes nothing, and finds the table of the leaves. -/
theorem walkLevels_find (vaddr : Nat) (hi : i < ops.logLevelSize.length)
    (hbase : table (shape ops) s.mem root (pathFrom ops vaddr (i + 1)) = some base) :
    walkLevels ops (ops.getOffsets vaddr) false i base s =
      .ok (table (shape ops) s.mem root (pathFrom ops vaddr 1), s) := by
  induction i generalizing base with
  | zero =>
    rw [hbase]
    rfl
  | succ i ih =>
    have hchild : table (shape ops) s.mem root (pathFrom ops vaddr (i + 1)) =
        child (shape ops) s.mem base ((ops.getOffsets vaddr).getD (i + 1) 0) := by
      rw [pathFrom_succ vaddr hi, table_snoc, hbase]
      rfl
    unfold walkLevels
    dsimp only
    split
    · rename_i hzero
      rw [child_eq_none.mpr hzero] at hchild
      have hprefix : ∃ q, pathFrom ops vaddr 1 = pathFrom ops vaddr (i + 1) ++ q := by
        unfold pathFrom
        refine ⟨(((ops.getOffsets vaddr).drop 1).take i).reverse, ?_⟩
        rw [← reverse_append, add_comm i 1, ← drop_drop, take_append_drop]
      obtain ⟨q, hq⟩ := hprefix
      rw [hq, table_append_none q hchild]
      rfl
    · rename_i hzero
      rw [child_eq_some hzero] at hchild
      exact ih (by omega) hchild

/-- With allocation a walk ends in the table of the leaves, and no page's number changes. -/
theorem walkLevels_alloc (vaddr : Nat) (hs : Sound ops root s) (hi : i < ops.logLevelSize.length)
    (hbase : table (shape ops) s.mem root (pathFrom ops vaddr (i + 1)) = some base) :
    Meets (walkLevels ops (ops.getOffsets vaddr) true i base s) (· = .outOfMemory) (fun r =>
      ∃ a, r.1 = some a ∧ Sound ops root r.2 ∧
        table (shape ops) r.2.mem root (pathFrom ops vaddr 1) = some a ∧
        ∀ w, pnumOf ops r.2 root w = pnumOf ops s root w) := by
  induction i generalizing base s with
  | zero => exact .ok ⟨base, rfl, hs, hbase, fun _ => rfl⟩
  | succ i ih =>
    have hlen : (pathFrom ops vaddr (i + 1 + 1)).length = _ := pathFrom_length vaddr _
    unfold walkLevels
    dsimp only
    split
    · rename_i hzero
      rw [if_pos rfl]
      unfold allocPhysPages
      split_ifs with hroom
      · exact .error rfl
      have hlevel : levelAt ops ((pathFrom ops vaddr (i + 1 + 1)).length + 1) = i := by
        unfold levelAt
        omega
      have hdepth : (shape ops).depth = ops.logLevelSize.length - 1 := rfl
      obtain ⟨hs', htable, hsame⟩ := grown_sound hs (pathFrom_valid vaddr (by omega)) (by omega)
        hbase (offset_fits vaddr hi) hzero (by rw [hlevel]; omega)
      rw [hlevel] at hs' htable hsame
      rw [← pathFrom_succ vaddr hi] at htable
      have hshift : (s.pagePtr <<< ops.pageShift) >>> ops.pageShift = s.pagePtr :=
        shiftLeft_shiftRight _ _
      change Meets (walkLevels ops (ops.getOffsets vaddr) true i
        ((s.pagePtr <<< ops.pageShift) >>> ops.pageShift) (write _ (ops.setPTEFields (ops.setPnum _
          ((s.pagePtr <<< ops.pageShift) >>> ops.pageShift)) {}) _)) _ _
      rw [hshift]
      refine (ih hs' (by omega) htable).mono (fun r ⟨a, h1, h2, h3, h4⟩ => ?_)
      exact ⟨a, h1, h2, h3, fun w => (h4 w).trans (hsame w)⟩
    · rename_i hzero
      refine ih hs (by omega) ?_
      rw [pathFrom_succ vaddr hi, table_snoc, hbase]
      exact child_eq_some hzero

theorem write_leaf (hs : Sound ops root s)
    (ha : table (shape ops) s.mem root (pathFrom ops vaddr 1) = some a) (pte : PTE) :
    Sound ops root (write (entryAddr ops a ((ops.getOffsets vaddr).getD 0 0)) pte s) ∧
      ∀ w, pnumOf ops (write (entryAddr ops a ((ops.getOffsets vaddr).getD 0 0)) pte s) root w =
        if pathFrom ops w 0 = pathFrom ops vaddr 0 then (shape ops).next pte
        else pnumOf ops s root w := by
  have hlevels : 0 < ops.logLevelSize.length := levels_pos
  have hlen : (pathFrom ops vaddr 1).length = _ := pathFrom_length vaddr 1
  have hdepth : (shape ops).depth = ops.logLevelSize.length - 1 := rfl
  generalize ho : (ops.getOffsets vaddr).getD 0 0 = o
  have hfits : o < (shape ops).fits (pathFrom ops vaddr 1).length := ho ▸ offset_fits vaddr hlevels
  have hw : Written (shape ops) s.mem (write (entryAddr ops a o) pte s).mem root
      (pathFrom ops vaddr 1) a o := by
    refine ⟨pathFrom_valid vaddr hlevels, by omega, ha, hfits, fun q b x _ _ _ _ hne => ?_,
      fun hlt => ?_, fun hlt => ?_⟩
    · exact update_of_ne hne _ _
    · omega
    · omega
  have hchild : child (shape ops) (write (entryAddr ops a o) pte s).mem a o =
      (shape ops).next pte :=
    congrArg (shape ops).next (update_self _ _ _)
  refine ⟨⟨hw.separate hs.separate (fun hlt => ?_), fun q b hq hql hb => ?_, hs.positive, hs.limit⟩,
    fun w => ?_⟩
  · omega
  · rw [hw.table_eq hs.separate hq (by omega), if_neg] at hb
    · exact hs.below q b hq hql hb
    · intro heq
      have hlast := congrArg List.length heq
      rw [length_append, length_singleton] at hlast
      omega
  · have hlength : (pathFrom ops w 0).length = _ := pathFrom_length w 0
    unfold pnumOf
    rw [hw.table_eq hs.separate (pathFrom_valid w (zero_le _)) (by omega), hchild, ← ho,
      ← pathFrom_succ vaddr hlevels]

theorem pnumOf_eq (vaddr : Nat) : pnumOf ops s root vaddr =
    (table (shape ops) s.mem root (pathFrom ops vaddr 1)).bind (fun a =>
      child (shape ops) s.mem a ((ops.getOffsets vaddr).getD 0 0)) := by
  unfold pnumOf
  rw [pathFrom_succ vaddr levels_pos, table_snoc]

variable {t : MultiLevelPageTable PTE}

theorem walk_find (vaddr : Nat) : walk ops vaddr false t = .ok
      ((table (shape ops) t.system.mem t.basePtr (pathFrom ops vaddr 1)).map
        (fun a => entryAddr ops a ((ops.getOffsets vaddr).getD 0 0)), t) := by
  have hlevels : 0 < ops.logLevelSize.length := levels_pos
  unfold walk
  dsimp only
  rw [walkLevels_find vaddr (by omega) (by
    rw [Nat.sub_add_cancel hlevels, pathFrom_end]
    exact table_nil)]
  rfl

theorem walk_alloc (vaddr : Nat) (hs : Sound ops t.basePtr t.system) :
    Meets (walk ops vaddr true t) (· = .outOfMemory) (fun r => ∃ a s,
      r = (some (entryAddr ops a ((ops.getOffsets vaddr).getD 0 0)), { t with system := s }) ∧
      Sound ops t.basePtr s ∧
      table (shape ops) s.mem t.basePtr (pathFrom ops vaddr 1) = some a ∧
      ∀ w, pnumOf ops s t.basePtr w = pnumOf ops t.system t.basePtr w) := by
  have hlevels : 0 < ops.logLevelSize.length := levels_pos
  refine (walkLevels_alloc vaddr hs (by omega) (by
    rw [Nat.sub_add_cancel hlevels, pathFrom_end]
    exact table_nil)).bind (fun r ⟨a, h1, h2, h3, h4⟩ => .ok ?_)
  exact ⟨a, r.2, by rw [h1]; rfl, h2, h3, h4⟩

end MultiLevelPageTable

end Gem5.Mem
