import Gem5.Lib.Transition

namespace Gem5.Cache

open Lib Function Option

/-- A fully associative tag store: its blocks from the most to the least recently used, their tags
and whether they are valid, and the table from addresses to blocks. -/
structure FaLru where
  blkSize : Nat
  lru : List Nat
  tag : Nat → Nat
  valid : Nat → Bool
  tagHash : Nat → Option Nat

namespace FaLru

/-- The sizes that the constructor accepts: powers of two, of which the assertions on the boundaries
demand 128 KiB in all. A single block, which has no neighbours in the list, is left out. -/
def Accepted (blkSize numBlocks : Nat) : Prop :=
  (∃ a ≤ 16, blkSize = 2 ^ a) ∧ (∃ b, numBlocks = 2 ^ b) ∧ 2 ^ 17 ≤ blkSize * numBlocks

theorem accepted_128K : Accepted 64 2048 :=
  ⟨⟨6, by decide, rfl⟩, ⟨11, rfl⟩, by decide⟩

def new (blkSize numBlocks : Nat) : FaLru where
  blkSize := blkSize
  lru := List.range numBlocks
  tag _ := 0
  valid _ := false
  tagHash _ := none

section

variable (s : FaLru)
include s

def blkAlign (addr : Nat) : Nat := addr / s.blkSize * s.blkSize

/-- The block of an address, if it has one; no result if the assertion on the block's tag fails. -/
def findBlock (addr : Nat) : Option (Option Nat) :=
  match s.tagHash (s.blkAlign addr) with
  | none => some none
  | some blk =>
    if s.valid blk then
      if s.tag blk = s.blkAlign addr then some (some blk) else none
    else some none

def moveToHead (blk : Nat) : FaLru := { s with lru := blk :: s.lru.erase blk }

def accessBlock (addr : Nat) : Option (FaLru × Option Nat) :=
  (s.findBlock addr).map (fun found => match found with
    | none => (s, none)
    | some blk => (if s.lru.head? = some blk then s else s.moveToHead blk, some blk))

def findVictim (addr : Nat) : Option (FaLru × Nat) :=
  s.lru.getLast?.map (fun blk =>
    let s := s.moveToHead blk
    let tagHash := Function.update s.tagHash (s.tag blk) none
    ({ s with tagHash := Function.update tagHash (s.blkAlign addr) (some blk) }, blk))

def insertBlock (_blk : Nat) : FaLru := s

/-- `invalidate` counts a tag less in use; the caller clears the block's status. -/
def invalidate (blk : Nat) : FaLru := { s with valid := Function.update s.valid blk false }

def fill (addr : Nat) : Option (FaLru × Nat) :=
  (s.findVictim addr).map (fun (s, blk) =>
    ({ s.insertBlock blk with valid := Function.update s.valid blk true }, blk))

end

/-- A tag store, and the address each block was last filled with and not invalidated since. -/
structure Run where
  tags : FaLru
  holds : Nat → Option Nat

inductive Move
  | accessBlock (addr : Nat)
  | fill (addr : Nat)
  | invalidate (blk : Nat)

def move (r : Run) : Move → Option Run
  | .accessBlock addr => (r.tags.accessBlock addr).map (fun (s, _) => { r with tags := s })
  | .fill addr => (r.tags.fill addr).map (fun (s, blk) =>
      ⟨s, Function.update r.holds blk (some (r.tags.blkAlign addr))⟩)
  | .invalidate blk => some ⟨r.tags.invalidate blk, Function.update r.holds blk none⟩

def machine : Machine Run Move where
  init r := ∃ blkSize numBlocks, Accepted blkSize numBlocks ∧
    r = ⟨new blkSize numBlocks, fun _ => none⟩
  step r m t := move r m = some t

structure Represents (r : Run) : Prop where
  mapped : ∀ addr blk, r.tags.tagHash addr = some blk ↔ r.tags.valid blk = true ∧
    r.tags.tag blk = addr
  unique : ∀ blk blk', r.tags.valid blk = true → r.tags.valid blk' = true →
    r.tags.tag blk = r.tags.tag blk' → blk = blk'
  found : ∀ addr, ∃ found, r.tags.findBlock addr = some found ∧
    (found.isSome ↔ ∃ blk, r.holds blk = some (r.tags.blkAlign addr))
  accessed : ∀ addr, (r.tags.accessBlock addr).isSome

/-- A block's tag is never written: the second insertion of a block, or an insertion at an address
other than 0, leaves the table wrong, and so does an invalidation. -/
theorem table_wrong : (∃ r, machine.Reachable r ∧ r.tags.findBlock 64 = none) ∧
    (∃ r, machine.Reachable r ∧ r.holds 2047 = some 0 ∧ r.tags.findBlock 0 = some none) ∧
    ∃ r, machine.Reachable r ∧ r.tags.tagHash 0 = some 2047 ∧ r.tags.valid 2047 = false := by
  have hstart : machine.Reachable ⟨new 64 2048, fun _ => none⟩ :=
    .start ⟨64, 2048, accepted_128K, rfl⟩
  refine ⟨?_, ?_, ?_⟩
  · exact Machine.exists_run (f := move) (fun _ _ _ h => h) hstart [.fill 64] (by decide +kernel)
  · exact Machine.exists_run (f := move) (fun _ _ _ h => h) hstart [.fill 0, .fill 64]
      (by decide +kernel)
  · exact Machine.exists_run (f := move) (fun _ _ _ h => h) hstart [.fill 0, .invalidate 2047]
      (by decide +kernel)

/-- A fill is of the address that the victim's tag has from before, which no other block holds,
and no block in use is invalidated. As no tag is ever written, that allows one fill, of the block
at 0. -/
def TagsAgree (r : Run) : Move → Prop
  | .accessBlock _ => True
  | .fill addr => ∀ blk ∈ r.tags.lru.getLast?, r.tags.tag blk = r.tags.blkAlign addr ∧
      ∀ blk', blk' ≠ blk → r.tags.valid blk' = true → r.tags.tag blk' ≠ r.tags.blkAlign addr
  | .invalidate blk => r.tags.valid blk = false

structure Inv (r : Run) : Prop where
  mapped : ∀ addr blk, r.tags.tagHash addr = some blk ↔ r.tags.valid blk = true ∧
    r.tags.tag blk = addr
  holds : ∀ blk, r.holds blk = if r.tags.valid blk then some (r.tags.tag blk) else none

theorem Inv.found {r : Run} (h : Inv r) (addr : Nat) : ∃ found, r.tags.findBlock addr = some found ∧
    (found.isSome ↔ ∃ blk, r.holds blk = some (r.tags.blkAlign addr)) := by
  unfold findBlock
  cases hlook : r.tags.tagHash (r.tags.blkAlign addr) with
  | none =>
    refine ⟨none, rfl, by simp, ?_⟩
    rintro ⟨blk, hblk⟩
    rw [h.holds] at hblk
    split_ifs at hblk with hvalid
    have hmapped := (h.mapped _ _).mpr ⟨hvalid, some.inj hblk⟩
    rw [hlook] at hmapped
    cases hmapped
  | some blk =>
    obtain ⟨hvalid, htag⟩ := (h.mapped _ _).mp hlook
    refine ⟨some blk, by simp [hvalid, htag], fun _ => ⟨blk, ?_⟩, fun _ => rfl⟩
    rw [h.holds, if_pos hvalid, htag]

theorem Inv.represents {r : Run} (h : Inv r) : Represents r := by
  refine ⟨h.mapped, fun blk blk' hblk hblk' htag => ?_, h.found, fun addr => ?_⟩
  · have h1 := (h.mapped (r.tags.tag blk) blk).mpr ⟨hblk, rfl⟩
    have h2 := (h.mapped (r.tags.tag blk) blk').mpr ⟨hblk', htag.symm⟩
    exact some.inj (h1.symm.trans h2)
  · obtain ⟨found, hfound, -⟩ := h.found addr
    rw [accessBlock, hfound]
    rfl

theorem Inv.fill {r : Run} (h : Inv r) {addr blk : Nat} {s : FaLru}
    (hs : r.tags.fill addr = some (s, blk)) (hagree : TagsAgree r (.fill addr)) :
    Inv ⟨s, update r.holds blk (some (r.tags.blkAlign addr))⟩ := by
  obtain ⟨_, hvictim, heq⟩ := map_eq_some_iff.mp hs
  obtain ⟨b, hlast, rfl⟩ := map_eq_some_iff.mp hvictim
  obtain ⟨rfl, rfl⟩ := Prod.mk.inj heq
  obtain ⟨htag, hother⟩ := hagree b hlast
  have hmapped := h.mapped
  constructor
  · intro a c
    change update (update r.tags.tagHash (r.tags.tag b) none) (r.tags.blkAlign addr)
      (some b) a = some c ↔ update r.tags.valid b true c = true ∧ r.tags.tag c = a
    obtain rfl | ha := eq_or_ne a (r.tags.blkAlign addr)
    · rw [update_self]
      by_cases hc : c = b
      · simp [hc, htag]
      · simpa [hc, Ne.symm hc] using hother c hc
    · rw [update_of_ne ha, htag, update_of_ne ha, h.mapped]
      by_cases hc : c = b
      · simp [hc, htag, Ne.symm ha]
      · rw [update_of_ne hc]
  · intro c
    change update r.holds b _ c = if update r.tags.valid b true c then _ else _
    obtain rfl | hc := eq_or_ne c b
    · simp only [update_self, if_true]
      exact congrArg some htag.symm
    · rw [update_of_ne hc, update_of_ne hc]
      exact h.holds c

theorem Inv.step {r t : Run} {m : Move} (h : Inv r) (hagree : TagsAgree r m)
    (ht : move r m = some t) :
    Inv t := by
  cases m with
  | accessBlock addr =>
    obtain ⟨⟨s, found⟩, hs, rfl⟩ := map_eq_some_iff.mp ht
    obtain ⟨found, -, heq⟩ := map_eq_some_iff.mp hs
    cases found with
    | none => exact (Prod.mk.inj heq).1 ▸ h
    | some blk =>
      rw [← (Prod.mk.inj heq).1]
      dsimp only
      split
      · exact h
      · exact ⟨h.mapped, h.holds⟩
  | fill addr =>
    obtain ⟨⟨s, blk⟩, hs, rfl⟩ := map_eq_some_iff.mp ht
    exact h.fill hs hagree
  | invalidate blk =>
    obtain rfl := some.inj ht
    have hsame : update r.tags.valid blk false = r.tags.valid :=
      update_eq_self_iff.mpr hagree.symm
    have hnone : update r.holds blk none = r.holds := by
      rw [update_eq_self_iff, h.holds, hagree, if_neg Bool.false_ne_true]
    rw [invalidate, hsame, hnone]
    exact h

/-- While the tags agree, so after at most one fill, the table represents what has been filled, and
no assertion fails. -/
theorem table_represents {r : Run} (h : (machine.restrict TagsAgree).Reachable r) :
    Represents r := by
  refine Inv.represents
    (h.invariant (M := machine.restrict TagsAgree) (I := Inv) ?_
      (fun r m t h hs => h.step hs.2 hs.1))
  rintro r ⟨blkSize, numBlocks, -, rfl⟩
  exact ⟨by simp [new], fun _ => rfl⟩

theorem table_represents_zero : ∃ r, (machine.restrict TagsAgree).Reachable r ∧
    r.tags.tagHash 0 = some 2047 ∧ Represents r := by
  have hfill : TagsAgree ⟨new 64 2048, fun _ => none⟩ (.fill 0) := by
    rintro blk -
    exact ⟨by simp [new, blkAlign], by simp [new]⟩
  obtain ⟨t, ht, hhash⟩ := (any_eq_true _ _).mp (show (move ⟨new 64 2048, fun _ => none⟩
    (.fill 0)).any (fun t => t.tags.tagHash 0 = some 2047) = true by decide +kernel)
  have hstart : (machine.restrict TagsAgree).Reachable ⟨new 64 2048, fun _ => none⟩ :=
    .start ⟨64, 2048, accepted_128K, rfl⟩
  have hr := hstart.next ⟨ht, hfill⟩
  exact ⟨t, hr, of_decide_eq_true hhash, table_represents hr⟩

end FaLru

end Gem5.Cache
