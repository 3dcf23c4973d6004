import Gem5.Base.AddrRange

namespace Gem5.Base

open List

/-- A `std::map` keyed by ranges: entries in strictly ascending key order. -/
structure AddrRangeMap (V : Type) where
  tree : List (AddrRange × V)
  sorted : tree.Pairwise (fun e f => e.1.key < f.1.key)

namespace AddrRangeMap

variable {V : Type}

def empty : AddrRangeMap V := { tree := [], sorted := .nil }

/-- The entry itself if its range intersects `r`, and `end()` if not. -/
def test (r : AddrRange) (i : AddrRange × V) : Res (Option (AddrRange × V)) := do
  if ← i.1.intersects r then return some i else return none

/-- The loop of `find` and the check after it, from the entry `i` with the entries
before it, last first. -/
def walkBack (r orig : AddrRange) (i : AddrRange × V) :
    List (AddrRange × V) → Res (Option (AddrRange × V))
  | [] => test r i
  | j :: before => do
    if i.1.mergesWith orig then
      if ← j.1.intersects r then return some j else walkBack r orig j before
    else test r i

section

variable (m : AddrRangeMap V)
include m

/-- The entries up to `upper_bound(r)`, and those from there on. -/
def below (r : AddrRange) : List (AddrRange × V) :=
  m.tree.takeWhile (fun e => !r.lt e.1)

def above (r : AddrRange) : List (AddrRange × V) :=
  m.tree.dropWhile (fun e => !r.lt e.1)

/-- The entry that the returned iterator points to, or `none` for `end()`. -/
def find (r : AddrRange) : Res (Option (AddrRange × V)) :=
  match (m.below r).reverse, m.above r with
  | [], [] => return none
  | [], i :: _ => test r i
  | i :: before, _ => do
    if ← i.1.intersects r then return some i
    else if i.1.interleaved then walkBack r i.1 i before
    else return none

def findAddr (a : Nat) : Res (Option (AddrRange × V)) :=
  m.find (RangeSize a 1)

def intersect (r : AddrRange) : Res Bool := do
  return (← m.find r).isSome

end

/-- `std::map::insert`: nothing happens if the key is there already. -/
def insertTree (r : AddrRange) (d : V) : List (AddrRange × V) → List (AddrRange × V)
  | [] => [(r, d)]
  | e :: tree =>
    if r.lt e.1 then (r, d) :: e :: tree
    else if e.1.lt r then e :: insertTree r d tree
    else e :: tree

theorem mem_insertTree {r : AddrRange} {d : V} {tree : List (AddrRange × V)} {e : AddrRange × V}
    (h : e ∈ insertTree r d tree) : e = (r, d) ∨ e ∈ tree := by
  induction tree with
  | nil => simpa [insertTree] using h
  | cons f tree ih =>
    unfold insertTree at h
    split at h
    · simpa using h
    split at h
    · rcases mem_cons.mp h with rfl | h
      · exact .inr (by simp)
      · rcases ih h with h | h
        · exact .inl h
        · exact .inr (by simp [h])
    · exact .inr h

theorem insertTree_sorted {r : AddrRange} {d : V} {tree : List (AddrRange × V)}
    (h : tree.Pairwise (fun e f => e.1.key < f.1.key)) :
    (insertTree r d tree).Pairwise (fun e f => e.1.key < f.1.key) := by
  induction tree with
  | nil => simp [insertTree]
  | cons f tree ih =>
    obtain ⟨hf, ht⟩ := pairwise_cons.mp h
    unfold insertTree
    split
    · rename_i hlt
      have hrf := (AddrRange.lt_iff _ _).mp hlt
      refine pairwise_cons.mpr ⟨fun e he => ?_, h⟩
      rcases mem_cons.mp he with rfl | he
      · exact hrf
      · exact hrf.trans (hf e he)
    · split_ifs with hlt
      · refine pairwise_cons.mpr ⟨fun e he => ?_, ih ht⟩
        rcases mem_insertTree he with rfl | he
        · exact (AddrRange.lt_iff _ _).mp hlt
        · exact hf e he
      · exact h

section

variable (m : AddrRangeMap V)
include m

/-- The map after the call; whether `end()` was returned is whether `find` found
an entry. -/
def insert (r : AddrRange) (d : V) : Res (AddrRangeMap V) := do
  if ← m.intersect r then return m
  else return { tree := insertTree r d m.tree, sorted := insertTree_sorted m.sorted }

def erase (p : Nat) : AddrRangeMap V :=
  { tree := m.tree.eraseIdx p, sorted := m.sorted.sublist (List.eraseIdx_sublist _ _) }

theorem eraseRange_sublist (p q : Nat) :
    (m.tree.take p ++ m.tree.drop (max p q)).Sublist m.tree := by
  conv_rhs => rw [← take_append_drop p m.tree]
  exact (List.Sublist.refl _).append (drop_sublist_drop_left _ (le_max_left p q))

/-- `erase(p, q)` of the positions from `p` up to `q`. -/
def eraseRange (p q : Nat) : AddrRangeMap V :=
  { tree := m.tree.take p ++ m.tree.drop (max p q)
    sorted := m.sorted.sublist (m.eraseRange_sublist p q) }

end

end AddrRangeMap

end Gem5.Base
