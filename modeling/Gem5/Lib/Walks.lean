import Mathlib

/-! Walks through a weighted directed graph, and their least weight. -/

namespace Lib

variable {V : Type u} {link : V → V → Int → Prop}

/-- A walk with its total weight. -/
inductive Walk (link : V → V → Int → Prop) : V → V → Int → Prop
  | nil (i : V) : Walk link i i 0
  | cons {i j k : V} {w c : Int} (h : link i k w) (rest : Walk link k j c) : Walk link i j (w + c)

def IsDist (link : V → V → Int → Prop) (i j : V) (d : Int) : Prop :=
  Walk link i j d ∧ ∀ c, Walk link i j c → d ≤ c

theorem Walk.append (h : Walk link i k c) (h' : Walk link k j c') : Walk link i j (c + c') := by
  induction h with
  | nil => rwa [Int.zero_add]
  | cons hl _ ih =>
    rw [Int.add_assoc]
    exact .cons hl (ih h')

theorem Walk.single (h : link i j w) : Walk link i j w := by
  have := Walk.cons h (.nil j)
  rwa [Int.add_zero] at this

theorem Walk.nonneg (hpos : ∀ i j w, link i j w → 0 < w) (h : Walk link i j c) : 0 ≤ c := by
  induction h with
  | nil => exact Int.le_refl 0
  | cons hl _ ih =>
    have := hpos _ _ _ hl
    omega

theorem Walk.exists_link (h : Walk link i j c) (hne : i ≠ j) : ∃ k w, link i k w := by
  cases h with
  | nil => exact absurd rfl hne
  | cons hl _ => exact ⟨_, _, hl⟩

/-- A table that satisfies the triangle inequality and is below every link is below
every walk that is not empty. -/
theorem Walk.le_of_closed {P : V → Prop} {d : V → V → Int} (hdom : ∀ i j w, link i j w → P i ∧ P j)
    (htri : ∀ i j k, P i → P j → P k → d i j ≤ d i k + d k j)
    (hlink : ∀ i j w, link i j w → d i j ≤ w) {i j : V} {c : Int} (h : Walk link i j c)
    (hj : P j) : d i j ≤ c ∨ i = j ∧ c = 0 := by
  induction h with
  | nil => exact .inr ⟨rfl, rfl⟩
  | cons hl _ ih =>
    have hle := hlink _ _ _ hl
    rcases ih hj with ih | ih
    · have := htri _ _ _ (hdom _ _ _ hl).1 hj (hdom _ _ _ hl).2
      exact .inl (by omega)
    · obtain ⟨heq, hc⟩ := ih
      subst heq
      exact .inl (by omega)

theorem IsDist.unique (h : IsDist link i j d) (h' : IsDist link i j d') : d = d' :=
  Int.le_antisymm (h.2 d' h'.1) (h'.2 d h.1)

/-- The first link of a shortest walk. -/
theorem IsDist.exists_link (h : IsDist link i j d) (hne : i ≠ j) :
    ∃ k w, link i k w ∧ IsDist link k j (d - w) := by
  obtain ⟨hwalk, hmin⟩ := h
  cases hwalk with
  | nil => exact absurd rfl hne
  | cons hl rest =>
    rename_i k w c
    refine ⟨k, w, hl, ?_, fun c' hc' => ?_⟩
    · rwa [show w + c - w = c by omega]
    · have := hmin _ (.cons hl hc')
      omega

end Lib
