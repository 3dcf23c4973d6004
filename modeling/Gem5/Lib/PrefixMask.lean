import Mathlib

namespace Lib

open BitVec

variable {w : Nat}

/-- The mask of the `n` highest bits. -/
def prefixMask (w n : Nat) : BitVec w := BitVec.allOnes w <<< (w - n)

/-- Two words with the same `n` highest bits. -/
def Agree (a b : BitVec w) (n : Nat) : Prop := ∀ i < n, a.getMsbD i = b.getMsbD i

theorem getMsbD_prefixMask (hn : n ≤ w) : (prefixMask w n).getMsbD i = decide (i < n) := by
  rw [prefixMask, getMsbD_shiftLeft, getMsbD_allOnes]
  congr 1
  simp only [eq_iff_iff]
  omega

theorem and_prefixMask_eq_iff (hn : n ≤ w) :
    a &&& prefixMask w n = b &&& prefixMask w n ↔ Agree a b n := by
  constructor
  · intro h i hi
    have hb := congrArg (fun x : BitVec w => x.getMsbD i) h
    simpa [getMsbD_and, getMsbD_prefixMask hn, hi] using hb
  intro h
  apply eq_of_getMsbD_eq
  intro i _
  simp only [getMsbD_and, getMsbD_prefixMask hn]
  by_cases hi : i < n
  · rw [h i hi]
  · simp [hi]

theorem prefixMask_and_prefixMask (hm : m ≤ w) (hn : n ≤ w) :
    prefixMask w m &&& prefixMask w n = prefixMask w (min m n) := by
  apply eq_of_getMsbD_eq
  intro i _
  rw [getMsbD_and, getMsbD_prefixMask hm, getMsbD_prefixMask hn,
    getMsbD_prefixMask (by omega)]
  simp

theorem prefixMask_inj (hm : m ≤ w) (hn : n ≤ w) : prefixMask w m = prefixMask w n ↔ m = n := by
  refine ⟨fun h => ?_, fun h => h ▸ rfl⟩
  have hbit (i : Nat) : i < m ↔ i < n := by
    rw [← decide_eq_decide, ← getMsbD_prefixMask hm, ← getMsbD_prefixMask hn, h]
  have h₁ := hbit m
  have h₂ := hbit n
  omega

/-- Shifting a prefix mask right and filling in the highest bit extends it. -/
theorem prefixMask_succ (hn : n < w) :
    prefixMask w n ||| (prefixMask w n >>> 1) ||| twoPow w (w - 1) =
      prefixMask w (n + 1) := by
  apply eq_of_getMsbD_eq
  intro i hi
  rw [getMsbD_or, getMsbD_or, getMsbD_ushiftRight, getMsbD_twoPow,
    getMsbD_prefixMask hn.le, getMsbD_prefixMask hn.le, getMsbD_prefixMask hn]
  rw [Bool.eq_iff_iff]
  simp only [hi, Bool.or_eq_true, Bool.and_eq_true, decide_eq_true_eq, Bool.not_eq_true',
    decide_eq_false_iff_not, true_and]
  omega

theorem prefixMask_full : prefixMask w w = allOnes w := by
  simp [prefixMask]

theorem prefixMask_zero : prefixMask w 0 = 0#w := by
  simp [prefixMask]

theorem Agree.mono (h : Agree a b n) (hm : m ≤ n) : Agree a b m :=
  fun i hi => h i (by omega)

theorem Agree.symm (h : Agree a b n) : Agree b a n :=
  fun i hi => (h i hi).symm

theorem Agree.trans (h : Agree a b n) (h' : Agree b c n) : Agree a c n :=
  fun i hi => (h i hi).trans (h' i hi)

theorem Agree.succ (h : Agree a b n) (hb : a.getMsbD n = b.getMsbD n) : Agree a b (n + 1) := by
  intro i hi
  rcases Nat.lt_succ_iff_lt_or_eq.mp hi with hi | rfl
  · exact h i hi
  · exact hb

theorem agree_masked (hn : n ≤ w) : Agree (a &&& prefixMask w n) a n := by
  intro i hi
  simp [getMsbD_and, getMsbD_prefixMask hn, hi]

theorem masked_and_of_le (hm : m ≤ n) (hn : n ≤ w) :
    a &&& prefixMask w m &&& prefixMask w n = a &&& prefixMask w m := by
  rw [BitVec.and_assoc, prefixMask_and_prefixMask (by omega) hn, min_eq_left hm]

end Lib
