import Mathlib

namespace Lib

/-- Objects in memory. Addresses are given out in order, so every object lies
below `size`; a deleted one reads as `none`. -/
structure Heap (α : Type u) where
  get : Nat → Option α
  size : Nat

namespace Heap

variable {α : Type u}

def empty : Heap α := { get := fun _ => none, size := 0 }

section

variable (h : Heap α)
include h

def set (p : Nat) (a : α) : Heap α :=
  { h with get := fun q => if q = p then some a else h.get q }

def free (p : Nat) : Heap α :=
  { h with get := fun q => if q = p then none else h.get q }

def alloc (a : α) : Heap α :=
  { get := fun q => if q = h.size then some a else h.get q, size := h.size + 1 }

@[simp] theorem get_set_self (p : Nat) (a : α) : (h.set p a).get p = some a := by
  simp [set]

theorem get_set_ne (a : α) (hq : q ≠ p) : (h.set p a).get q = h.get q := by
  simp [set, hq]

@[simp] theorem get_free_self (p : Nat) : (h.free p).get p = none := by
  simp [free]

theorem get_free_ne (hq : q ≠ p) : (h.free p).get q = h.get q := by
  simp [free, hq]

@[simp] theorem get_alloc_self (a : α) : (h.alloc a).get h.size = some a := by
  simp [alloc]

theorem get_alloc_ne (a : α) (hq : q ≠ h.size) : (h.alloc a).get q = h.get q := by
  simp [alloc, hq]

@[simp] theorem size_set (p : Nat) (a : α) : (h.set p a).size = h.size := rfl
@[simp] theorem size_free (p : Nat) : (h.free p).size = h.size := rfl
@[simp] theorem size_alloc (a : α) : (h.alloc a).size = h.size + 1 := rfl

/-- Nothing lies at an address not given out yet. -/
def Bounded : Prop := ∀ p a, h.get p = some a → p < h.size

end

namespace Bounded

variable {h : Heap α}

theorem set (hb : h.Bounded) (hp : h.get p = some a) (a' : α) : (h.set p a').Bounded := by
  intro q c hq
  by_cases hqp : q = p
  · exact hqp ▸ hb p a hp
  · rw [get_set_ne h a' hqp] at hq
    exact hb q c hq

theorem free (hb : h.Bounded) (p : Nat) : (h.free p).Bounded := by
  intro q c hq
  obtain rfl | hqp := eq_or_ne q p
  · simp at hq
  · rw [get_free_ne h hqp] at hq
    exact hb q c hq

theorem alloc (hb : h.Bounded) (a : α) : (h.alloc a).Bounded := by
  intro q c hq
  by_cases hqp : q = h.size
  · simp [hqp]
  · rw [get_alloc_ne h a hqp] at hq
    exact Nat.lt_succ_of_lt (hb q c hq)

end Bounded

end Heap

end Lib
