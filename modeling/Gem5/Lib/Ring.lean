import Mathlib

namespace Lib.Ring

open Nat

/-! Indices of a circular queue of `n` cells, against positions that never wrap: position `p`
has its cell at index `p % n`. -/

def next (n i : Nat) : Nat := if n ≤ i + 1 then 0 else i + 1

def prev (n i : Nat) : Nat := if i = 0 then n - 1 else i - 1

variable {n : Nat} {α : Type u}

theorem mod_succ (hn : 0 < n) (p : Nat) : (p + 1) % n = if n ≤ p % n + 1 then 0 else p % n + 1 := by
  have hlt := mod_lt p hn
  rw [add_mod p 1 n]
  obtain rfl | hone := eq_or_ne n 1
  · simp [mod_one]
  · rw [mod_eq_of_lt (show 1 < n by omega)]
    split
    · rw [show p % n + 1 = n by omega, mod_self]
    · exact mod_eq_of_lt (by omega)

theorem next_mod (hn : 0 < n) (p : Nat) : next n (p % n) = (p + 1) % n := by
  rw [mod_succ hn]
  rfl

theorem prev_mod (hn : 0 < n) (p : Nat) : prev n ((p + 1) % n) = p % n := by
  have hlt := mod_lt p hn
  rw [mod_succ hn]
  unfold prev
  split
  · rw [if_pos rfl]
    omega
  · rw [if_neg (by omega)]
    omega

/-- Positions less than a round apart that share a cell are the same. -/
theorem mod_inj (h : p % n = q % n) (hpq : p < q + n) (hqp : q < p + n) : p = q := by
  rcases le_total p q with hle | hle
  · have hdvd := (modEq_iff_dvd' hle).mp h
    have := eq_zero_of_dvd_of_lt hdvd (by omega)
    omega
  · have hdvd := (modEq_iff_dvd' hle).mp h.symm
    have := eq_zero_of_dvd_of_lt hdvd (by omega)
    omega

theorem mod_ne (hne : p ≠ q) (hpq : p < q + n) (hqp : q < p + n) : p % n ≠ q % n :=
  fun h => hne (mod_inj h hpq hqp)

/-- A write to one cell leaves the cells of the other positions of the window. -/
theorem update_of_ne {f : Nat → α} {p q : Nat} (hne : p ≠ q) (hpq : p < q + n) (hqp : q < p + n)
    (a : α) : Function.update f (q % n) a (p % n) = f (p % n) :=
  Function.update_of_ne (mod_ne hne hpq hqp) _ _

/-- How far it is from one index on to another. -/
def distance (n i j : Nat) : Nat := (j + n - i) % n

theorem distance_mod (hle : p ≤ q) (hlt : q < p + n) : distance n (p % n) (q % n) = q - p := by
  have hn : 0 < n := by omega
  have hp := mod_lt p hn
  have hsum : distance n (p % n) (q % n) + p ≡ (q - p) + p [MOD n] := by
    have h1 : distance n (p % n) (q % n) + p ≡ (q % n + n - p % n) + p % n [MOD n] :=
      (mod_modEq _ _).add (mod_modEq _ _).symm
    refine h1.trans ?_
    rw [Nat.sub_add_cancel (by omega), Nat.sub_add_cancel hle]
    change (q % n + n) % n = q % n
    rw [add_mod_right, mod_mod]
  have hcancel := Nat.ModEq.add_right_cancel' p hsum
  exact hcancel.eq_of_lt_of_lt (mod_lt _ hn) (by omega)

end Lib.Ring
