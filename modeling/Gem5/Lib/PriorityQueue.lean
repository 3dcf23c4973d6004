import Mathlib

namespace Lib

/-- What a heap kept in a vector promises: `push` puts an element in, `pop` takes the
front one out, and the front of a valid vector is one that no other comes before. Which
of several such elements is at the front is left open. -/
structure HeapOps (α : Type u) (lt : α → α → Prop) where
  Valid : List α → Prop
  push : List α → α → List α
  pop : List α → List α
  valid_nil : Valid []
  valid_push : ∀ l a, Valid l → Valid (push l a)
  valid_pop : ∀ l, Valid l → Valid (pop l)
  perm_push : ∀ l a, (push l a).Perm (a :: l)
  perm_pop : ∀ a l, Valid (a :: l) → (pop (a :: l)).Perm l
  front_min : ∀ a l, Valid (a :: l) → ∀ b ∈ l, ¬ lt b a

/-- A priority queue. -/
structure PQueue {α : Type u} {lt : α → α → Prop} (H : HeapOps α lt) where
  items : List α
  valid : H.Valid items

namespace PQueue

variable {α : Type u} {lt : α → α → Prop} {H : HeapOps α lt}

def empty (H : HeapOps α lt) : PQueue H := ⟨[], H.valid_nil⟩

section

variable (q : PQueue H)
include q

def insert (a : α) : PQueue H := ⟨H.push q.items a, H.valid_push _ _ q.valid⟩

def drop : PQueue H := ⟨H.pop q.items, H.valid_pop _ q.valid⟩

/-- The front element, if there is one. -/
def front : Option α := q.items.head?

/-- The front element and what is left without it, if the front element meets `p`. -/
def takeIf (p : α → Bool) : Option (α × PQueue H) :=
  match q.front with
  | some a => if p a then some (a, q.drop) else none
  | none => none

theorem perm_insert (a : α) : (q.insert a).items.Perm (a :: q.items) :=
  H.perm_push _ _

end

theorem mem_insert {q : PQueue H} {a x : α} : x ∈ (q.insert a).items ↔ x = a ∨ x ∈ q.items := by
  rw [(q.perm_insert a).mem_iff, List.mem_cons]

theorem front_eq_some {q : PQueue H} {a : α} (h : q.front = some a) :
    q.items.Perm (a :: q.drop.items) ∧ ∀ b ∈ q.drop.items, ¬ lt b a := by
  obtain ⟨items, valid⟩ := q
  cases items with
  | nil => cases h
  | cons x l =>
    obtain rfl : x = a := Option.some.inj h
    have hperm : (H.pop (x :: l)).Perm l := H.perm_pop x l valid
    exact ⟨hperm.symm.cons x, fun b hb => H.front_min x l valid b (hperm.mem_iff.mp hb)⟩

theorem front_eq_none {q : PQueue H} : q.front = none ↔ q.items = [] := by
  unfold front
  exact List.head?_eq_none_iff

theorem takeIf_eq_some {q q' : PQueue H} {p : α → Bool} {a : α} (h : q.takeIf p = some (a, q')) :
    p a = true ∧ q.items.Perm (a :: q'.items) ∧ ∀ b ∈ q'.items, ¬ lt b a := by
  unfold takeIf at h
  split at h
  · rename_i b hfront
    split_ifs at h with hp
    cases h
    exact ⟨hp, front_eq_some hfront⟩
  · cases h

theorem takeIf_eq_none {q : PQueue H} {p : α → Bool} (h : q.takeIf p = none) :
    q.items = [] ∨ ∃ a ∈ q.items, p a = false ∧ ∀ b ∈ q.items, ¬ lt b a ∨ b = a := by
  unfold takeIf at h
  split at h
  · rename_i a hfront
    obtain ⟨hperm, hmin⟩ := front_eq_some hfront
    split_ifs at h with hp
    refine .inr ⟨a, hperm.mem_iff.mpr List.mem_cons_self, Bool.eq_false_iff.mpr hp, ?_⟩
    intro b hb
    rcases List.mem_cons.mp (hperm.mem_iff.mp hb) with heq | hb
    · exact .inr heq
    · exact .inl (hmin b hb)
  · rename_i hfront
    exact .inl (front_eq_none.mp hfront)

end PQueue

section

variable {α : Type u} (key : α → Nat × Nat)
include key

/-- `a` comes before `b` by a pair of keys. -/
def KeyLt (a b : α) : Prop :=
  (key a).1 < (key b).1 ∨ ((key a).1 = (key b).1 ∧ (key a).2 < (key b).2)

instance : DecidableRel (KeyLt key) :=
  fun _ _ => inferInstanceAs (Decidable (_ ∨ _))

theorem keyLt_total (a b : α) : ¬ KeyLt key b a ∨ ¬ KeyLt key a b := by
  unfold KeyLt
  omega

end

theorem keyLt_trans {α : Type u} {key : α → Nat × Nat} {a b c : α} (h : ¬ KeyLt key b a)
    (h' : ¬ KeyLt key c b) : ¬ KeyLt key c a := by
  unfold KeyLt at *
  omega

/-- A sorted list meets the promises of a heap. -/
def sortedHeap {α : Type u} (key : α → Nat × Nat) : HeapOps α (KeyLt key) where
  Valid l := l.Pairwise (fun a b => ¬ KeyLt key b a)
  push l a := l.orderedInsert (fun a b => ¬ KeyLt key b a) a
  pop l := l.tail
  valid_nil := .nil
  valid_push l a h := by
    have : Std.Total (fun a b : α => ¬ KeyLt key b a) := ⟨fun a b => keyLt_total key a b⟩
    have : IsTrans α (fun a b => ¬ KeyLt key b a) := ⟨fun a b c => keyLt_trans⟩
    exact h.orderedInsert a l
  valid_pop l h := h.tail
  perm_push l a := List.perm_orderedInsert _ a l
  perm_pop a l _ := .refl _
  front_min a l h b hb := (List.pairwise_cons.mp h).1 b hb

end Lib
