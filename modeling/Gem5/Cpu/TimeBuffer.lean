import Mathlib

namespace Gem5.Cpu

open Function Option

/-! The queues in which the stages of a pipeline pass values to later cycles. -/

/-- `data` has the elements by their place in `index`. -/
structure TimeBuffer (past future : Nat) (T : Type) where
  base : Nat := 0
  data : Int → T
  base_lt : base < past + future + 1 := by omega

namespace TimeBuffer

variable {past future : Nat} {T : Type} (fresh : T) (b : TimeBuffer past future T)

/-- The place that is recycled is the one that `future` denotes from now on. -/
def advance : TimeBuffer past future T :=
  let base := if past + future + 1 ≤ b.base + 1 then 0 else b.base + 1
  let ptr : Int := base + future
  { base
    data := update b.data (if past + future + 1 ≤ ptr then ptr - (past + future + 1) else ptr) fresh
    base_lt := by grind }

/-- `none` is a failed assertion. -/
def calculateVectorIndex (idx : Int) : Option Int :=
  if -past ≤ idx ∧ idx ≤ future then
    let vectorIndex := idx + b.base
    some (if past + future + 1 ≤ vectorIndex then vectorIndex - (past + future + 1)
      else if vectorIndex < 0 then vectorIndex + (past + future + 1)
      else vectorIndex)
  else none

def access (idx : Int) : Option T := (b.calculateVectorIndex idx).map b.data

def write (idx : Int) (value : T) : Option (TimeBuffer past future T) :=
  (b.calculateVectorIndex idx).map (fun i => { b with data := update b.data i value })

inductive Call (T : Type)
  | write (idx : Int) (value : T)
  | advance

def apply : Call T → Option (TimeBuffer past future T)
  | .write idx value => b.write idx value
  | .advance => some (b.advance fresh)

/-- The cycles that a run takes. -/
def cycles : List (Call T) → Nat
  | [] => 0
  | .write _ _ :: calls => cycles calls
  | .advance :: calls => cycles calls + 1

/-- No call writes to the element that is at offset `i` at first. -/
def Spares (i : Int) : List (Call T) → Prop
  | [] => True
  | .write idx _ :: calls => idx ≠ i ∧ Spares i calls
  | .advance :: calls => Spares (i - 1) calls

variable {fresh} {b} {b' : TimeBuffer past future T} {v : T}

theorem calculateVectorIndex_eq_some : b.calculateVectorIndex i = some k ↔
    (-past ≤ i ∧ i ≤ future) ∧ 0 ≤ k ∧ k < past + future + 1 ∧
      (k = i + b.base ∨ k + (past + future + 1) = i + b.base ∨
        k = i + b.base + (past + future + 1)) := by
  have hbase := b.base_lt
  simp only [calculateVectorIndex, ite_none_right_eq_some, some.injEq]
  refine and_congr_right (fun hvalid => ?_)
  split_ifs <;> omega

theorem calculateVectorIndex_inj (hi : b.calculateVectorIndex i = some k)
    (hj : b.calculateVectorIndex j = some k) : i = j := by
  rw [calculateVectorIndex_eq_some] at hi hj
  omega

/-- The element at an offset is at the offset before after the cycle. -/
theorem advance_index (fresh : T) (h : b.calculateVectorIndex i = some k)
    (hi : -(past : Int) ≤ i - 1) : (b.advance fresh).calculateVectorIndex (i - 1) = some k := by
  have hbase := b.base_lt
  rw [calculateVectorIndex_eq_some] at h ⊢
  dsimp only [advance]
  split_ifs <;> omega

theorem advance_data (b : TimeBuffer past future T) (fresh : T) :
    ∃ k, (b.advance fresh).calculateVectorIndex future = some k ∧
      (b.advance fresh).data = update b.data k fresh := by
  refine ⟨_, calculateVectorIndex_eq_some.mpr ?_, rfl⟩
  have hbase := b.base_lt
  dsimp only [advance]
  split_ifs <;> omega

theorem access_write (h : b.write i v = some b') : b'.access i = some v := by
  obtain ⟨k, hk, rfl⟩ := map_eq_some_iff.mp h
  exact map_eq_some_iff.mpr ⟨k, hk, update_self _ _ _⟩

theorem access_write_of_ne (h : b.access i = some v) (hw : b.write j x = some b') (hne : j ≠ i) :
    b'.access i = some v := by
  obtain ⟨k, hk, hv⟩ := map_eq_some_iff.mp h
  obtain ⟨l, hl, rfl⟩ := map_eq_some_iff.mp hw
  have hkl : k ≠ l := by
    rintro rfl
    exact hne (calculateVectorIndex_inj hl hk)
  exact map_eq_some_iff.mpr ⟨k, hk, (update_of_ne hkl _ _).trans hv⟩

theorem access_advance (h : b.access i = some v) (hi : -(past : Int) ≤ i - 1) :
    (b.advance fresh).access (i - 1) = some v := by
  obtain ⟨k, hk, hv⟩ := map_eq_some_iff.mp h
  obtain ⟨l, hl, hdata⟩ := advance_data b fresh
  have hk' := advance_index fresh hk hi
  have hkl : k ≠ l := by
    rintro rfl
    have hle := (calculateVectorIndex_eq_some.mp hk).1.2
    have := calculateVectorIndex_inj hk' hl
    omega
  refine map_eq_some_iff.mpr ⟨k, hk', ?_⟩
  rw [hdata, update_of_ne hkl, hv]

/-- An element stays, while it moves to smaller offsets. -/
theorem access_run {calls : List (Call T)} (h : b.access i = some v)
    (hrun : calls.foldlM (apply fresh) b = some b') (hspares : Spares i calls)
    (hi : -(past : Int) ≤ i - cycles calls) : b'.access (i - cycles calls) = some v := by
  induction calls generalizing b i with
  | nil =>
    cases hrun
    simpa [cycles] using h
  | cons call calls ih =>
    obtain ⟨b₁, hcall, hrest⟩ := bind_eq_some_iff.mp hrun
    cases call with
    | write j x => exact ih (access_write_of_ne h hcall hspares.1) hrest hspares.2 hi
    | advance =>
      cases hcall
      simp only [cycles, Nat.cast_add, Nat.cast_one] at hi ⊢
      rw [show i - ((cycles calls : Int) + 1) = i - 1 - cycles calls by omega] at hi ⊢
      exact ih (access_advance h (by omega)) hrest hspares hi

/-- A value is found where the cycles that have passed have taken it, until it is overwritten or
leaves the buffer; the offsets of a cycle are those of different elements, all of them in the
buffer; and a new element comes in fresh. -/
theorem time_buffer_is_delay_line (b : TimeBuffer past future T) (fresh : T) :
    (∀ i v calls b', (.write i v :: calls : List (Call T)).foldlM (apply fresh) b = some b' →
      Spares i calls → -(past : Int) ≤ i - cycles calls → b'.access (i - cycles calls) = some v) ∧
    (∀ i, -(past : Int) ≤ i → i ≤ future →
      ∃ k, b.calculateVectorIndex i = some k ∧ 0 ≤ k ∧ k < past + future + 1) ∧
    (∀ i j k, b.calculateVectorIndex i = some k → b.calculateVectorIndex j = some k → i = j) ∧
    (b.advance fresh).access future = some fresh := by
  refine ⟨fun i v calls b' hrun hspares hi => ?_, fun i hi hi' => ?_,
    fun i j k => calculateVectorIndex_inj, ?_⟩
  · obtain ⟨b₁, hwrite, hrun⟩ := bind_eq_some_iff.mp hrun
    exact access_run (access_write hwrite) hrun hspares hi
  · have hsome : b.calculateVectorIndex i = some _ := if_pos ⟨hi, hi'⟩
    obtain ⟨-, hk, hk', -⟩ := calculateVectorIndex_eq_some.mp hsome
    exact ⟨_, hsome, hk, hk'⟩
  · obtain ⟨k, hk, hdata⟩ := advance_data b fresh
    refine map_eq_some_iff.mpr ⟨k, hk, ?_⟩
    rw [hdata, update_self]

/-- A value for the next cycle, read two cycles later. -/
theorem time_buffer_is_delay_line_one : ∃ b',
    ([.write 1 7, .advance, .write 1 8, .advance] : List (Call Nat)).foldlM (apply 0)
      ({ data := fun _ => 0 } : TimeBuffer 1 1 Nat) = some b' ∧ b'.access (-1) = some 7 :=
  ⟨_, rfl, (time_buffer_is_delay_line { data := fun _ => 0 } 0).1 1 7
    [.advance, .write 1 8, .advance] _ rfl ⟨by decide, trivial⟩ (by decide)⟩

end TimeBuffer

end Gem5.Cpu
