import Mathlib

namespace Gem5.Minor

open Function

/-! The scoreboard of the results that are in flight. -/

inductive MinorRegClass
  | int | float | cc | misc

/-- The ranges of the unified register indices. -/
structure RegRanges where
  numIntRegs : Nat
  numCCRegs : Nat
  zeroReg : Nat
  fpRegBase : Nat
  ccRegBase : Nat
  miscRegBase : Nat

namespace RegRanges

variable (isa : RegRanges)

def regIdxToClass (reg : Nat) : MinorRegClass :=
  if reg < isa.fpRegBase then .int
  else if reg < isa.ccRegBase then .float
  else if reg < isa.miscRegBase then .cc
  else .misc

/-- The class `cc` is offset by the base of the class `float`, as in the source. -/
def findIndex (reg : Nat) : Option Nat :=
  if reg = isa.zeroReg then none
  else
    match isa.regIdxToClass reg with
    | .int => some reg
    | .float => some (isa.numIntRegs + isa.numCCRegs + reg - isa.fpRegBase)
    | .cc => some (isa.numIntRegs + reg - isa.fpRegBase)
    | .misc => none

end RegRanges

/-- An instruction with its flattened registers. -/
structure ScoreboardInst where
  srcRegs : List Nat := []
  destRegs : List Nat := []
  isFault : Bool := false
  execSeqNum : Nat
  fuIndex : Nat

structure Scoreboard where
  numResults : Nat → Nat := fun _ => 0
  numUnpredictableResults : Nat → Nat := fun _ => 0
  fuIndices : Nat → Int := fun _ => 0
  returnCycle : Nat → Nat := fun _ => 0
  writingInst : Nat → Nat := fun _ => 0

namespace Scoreboard

variable (isa : RegRanges) (s : Scoreboard)

def markDest (inst : ScoreboardInst) (retireTime : Nat) (markUnpredictable : Bool) (index : Nat) :
    Scoreboard :=
  { s with
    numUnpredictableResults :=
      if markUnpredictable then
        update s.numUnpredictableResults index (s.numUnpredictableResults index + 1)
      else s.numUnpredictableResults
    numResults := update s.numResults index (s.numResults index + 1)
    returnCycle := update s.returnCycle index retireTime
    writingInst :=
      if s.writingInst index < inst.execSeqNum then update s.writingInst index inst.execSeqNum
      else s.writingInst
    fuIndices :=
      if s.writingInst index < inst.execSeqNum then update s.fuIndices index inst.fuIndex
      else s.fuIndices }

def markupInstDests (inst : ScoreboardInst) (retireTime : Nat) (markUnpredictable : Bool) :
    Scoreboard :=
  if inst.isFault then s
  else (inst.destRegs.filterMap isa.findIndex).foldl
    (fun s index => s.markDest inst retireTime markUnpredictable index) s

/-- The count is of 16 bits: one of zero wraps. -/
def clearDest (clearUnpredictable : Bool) (index : Nat) : Scoreboard :=
  let numResults := (s.numResults index + 65535) % 2 ^ 16
  { numUnpredictableResults :=
      if clearUnpredictable ∧ s.numUnpredictableResults index ≠ 0 then
        update s.numUnpredictableResults index (s.numUnpredictableResults index - 1)
      else s.numUnpredictableResults
    numResults := update s.numResults index numResults
    returnCycle := if numResults = 0 then update s.returnCycle index 0 else s.returnCycle
    writingInst := if numResults = 0 then update s.writingInst index 0 else s.writingInst
    fuIndices := if numResults = 0 then update s.fuIndices index (-1) else s.fuIndices }

def clearInstDests (inst : ScoreboardInst) (clearUnpredictable : Bool) : Scoreboard :=
  if inst.isFault then s
  else (inst.destRegs.filterMap isa.findIndex).foldl
    (fun s index => s.clearDest clearUnpredictable index) s

/-- The loop ends at the first source that is not there in time. -/
def sourcesReturn (cantForward : Nat → Bool) (inst : ScoreboardInst) (latencies : List Nat)
    (now : Nat) : Bool :=
  inst.srcRegs.zipIdx.all fun src => (isa.findIndex src.1).all fun index =>
    decide (s.returnCycle index ≤
      now + if cantForward index then 0 else latencies.getD src.2 (latencies.getLastD 0)) &&
    s.numUnpredictableResults index == 0

def cantForward (cantForwardFromFUIndices : List Bool) (index : Nat) : Bool :=
  s.fuIndices index != 1 && cantForwardFromFUIndices.getD index false

def canInstIssue (inst : ScoreboardInst) (latencies : List Nat)
    (cantForwardFromFUIndices : List Bool) (now : Nat) : Bool :=
  inst.isFault || s.sourcesReturn isa (s.cantForward cantForwardFromFUIndices) inst latencies now

/-- The vector that a functional unit makes of its parameter: `resize` also cuts. -/
def cantForwardFromFUIndices (units : List Nat) : List Bool :=
  units.foldl (fun v i => (v.takeD (i + 1) false).set i true) []

/-- What the parameter is there for: no forwarding from the units that it names. -/
def restricted (units : List Nat) (index : Nat) : Bool := units.any (s.fuIndices index = ·)

def mayIssue (inst : ScoreboardInst) (latencies units : List Nat) (now : Nat) : Bool :=
  inst.isFault || s.sourcesReturn isa (s.restricted units) inst latencies now

/-- The last cycle in which a source returns that cannot be forwarded. -/
def lastReturn (cantForward : Nat → Bool) (inst : ScoreboardInst) : Nat :=
  ((inst.srcRegs.zipIdx.filterMap (isa.findIndex ·.1)).toFinset.filter (cantForward ·)).sup
    s.returnCycle

def Unpredictable (inst : ScoreboardInst) : Prop := ∃ src ∈ inst.srcRegs.zipIdx,
  ∃ index ∈ isa.findIndex src.1, s.numUnpredictableResults index ≠ 0

variable {isa} {s} {r r' : Nat → Bool} {inst : ScoreboardInst}

theorem lastReturn_le : s.lastReturn isa r inst ≤ n ↔ ∀ src ∈ inst.srcRegs.zipIdx,
    ∀ index ∈ isa.findIndex src.1, r index = true → s.returnCycle index ≤ n := by
  simp only [lastReturn, Finset.sup_le_iff, Finset.mem_filter, List.mem_toFinset,
    List.mem_filterMap, Option.mem_def]
  exact ⟨fun h src hsrc index hi hr => h index ⟨⟨src, hsrc, hi⟩, hr⟩,
    fun h index ⟨⟨src, hsrc, hi⟩, hr⟩ => h src hsrc index hi hr⟩

theorem sourcesReturn_iff : s.sourcesReturn isa r inst latencies now = true ↔
    ∀ src ∈ inst.srcRegs.zipIdx, ∀ index ∈ isa.findIndex src.1, s.returnCycle index ≤
      now + (if r index then 0 else latencies.getD src.2 (latencies.getLastD 0)) ∧
      s.numUnpredictableResults index = 0 := by
  simp [sourcesReturn, Option.all_eq_true]

theorem lastReturn_le_of_sourcesReturn (h : s.sourcesReturn isa r inst latencies now = true) :
    s.lastReturn isa r inst ≤ now :=
  lastReturn_le.mpr fun src hsrc index hi hr => by
    simpa [hr] using (sourcesReturn_iff.mp h src hsrc index hi).1

theorem sourcesReturn_of_le (h : s.sourcesReturn isa r inst latencies now = true)
    (hle : s.lastReturn isa r' inst ≤ now) : s.sourcesReturn isa r' inst latencies now = true := by
  refine sourcesReturn_iff.mpr fun src hsrc index hi => ?_
  obtain ⟨hret, hpred⟩ := sourcesReturn_iff.mp h src hsrc index hi
  refine ⟨?_, hpred⟩
  split_ifs with hr
  · exact lastReturn_le.mp hle src hsrc index hi hr
  · split_ifs at hret <;> omega

theorem lastReturn_le_lastReturn (hpred : ¬ s.Unpredictable isa inst)
    (h : ∀ latencies now, s.sourcesReturn isa r inst latencies now = true →
      s.sourcesReturn isa r' inst latencies now = true) :
    s.lastReturn isa r' inst ≤ s.lastReturn isa r inst := by
  -- latencies so long that only the sources that cannot be forwarded matter
  refine lastReturn_le_of_sourcesReturn (h [s.lastReturn isa (fun _ => true) inst] _ ?_)
  refine sourcesReturn_iff.mpr fun src hsrc index hi => ⟨?_, ?_⟩
  · split_ifs with hr
    · exact lastReturn_le.mp le_rfl src hsrc index hi hr
    · have hall := lastReturn_le.mp (le_refl (s.lastReturn isa (fun _ => true) inst)) src hsrc index
        hi rfl
      cases src.2 <;> simp <;> omega
  · by_contra hne
    exact hpred ⟨src, hsrc, index, hi, hne⟩

/-- An instruction issues as the parameter of the unit says, whatever the cycle and the latencies,
exactly if a result of unknown time holds it back or the vector, which is indexed by the registers,
leaves the last return of a source that cannot be forwarded as it is. A fault always issues. -/
theorem canInstIssue_iff (isa : RegRanges) (s : Scoreboard) (inst : ScoreboardInst)
    (units : List Nat) :
    (∀ latencies now, s.canInstIssue isa inst latencies (cantForwardFromFUIndices units) now =
      s.mayIssue isa inst latencies units now) ↔
    inst.isFault = true ∨ s.Unpredictable isa inst ∨
      s.lastReturn isa (s.cantForward (cantForwardFromFUIndices units)) inst =
        s.lastReturn isa (s.restricted units) inst := by
  unfold canInstIssue mayIssue
  cases inst.isFault with
  | true => exact ⟨fun _ => .inl rfl, fun _ _ _ => rfl⟩
  | false =>
    simp only [Bool.false_or, Bool.false_eq_true, false_or]
    constructor
    · intro h
      by_cases hpred : s.Unpredictable isa inst
      · exact .inl hpred
      · exact .inr (le_antisymm
          (lastReturn_le_lastReturn hpred fun latencies now hi => (h latencies now).trans hi)
          (lastReturn_le_lastReturn hpred fun latencies now hi => (h latencies now).symm.trans hi))
    rintro (⟨src, hsrc, index, hi, hne⟩ | heq) latencies now
    · have hno : ∀ r, s.sourcesReturn isa r inst latencies now = false := fun r =>
        Bool.eq_false_iff.mpr fun h => hne (sourcesReturn_iff.mp h src hsrc index hi).2
      rw [hno, hno]
    refine Bool.eq_iff_iff.mpr ⟨fun h => sourcesReturn_of_le h ?_,
      fun h => sourcesReturn_of_le h ?_⟩
    · rw [← heq]
      exact lastReturn_le_of_sourcesReturn h
    · rw [heq]
      exact lastReturn_le_of_sourcesReturn h

/-- Eight registers, the last two of them for conditions. -/
def smallIsa : RegRanges := ⟨4, 2, 0, 4, 6, 8⟩

/-- After a result of unit 2, one of unit 3 is forwarded although the parameter names the unit. -/
theorem forwards_from_restricted_unit :
    let first : ScoreboardInst := { destRegs := [1], execSeqNum := 1, fuIndex := 2 }
    let s := ((({} : Scoreboard).markupInstDests smallIsa first 1 true).clearInstDests smallIsa
      first true).markupInstDests smallIsa { destRegs := [1], execSeqNum := 2, fuIndex := 3 } 2
      false
    let inst : ScoreboardInst := { srcRegs := [1], execSeqNum := 3, fuIndex := 0 }
    s.canInstIssue smallIsa inst [2] (cantForwardFromFUIndices [3]) 0 = true ∧
      s.mayIssue smallIsa inst [2] [3] 0 = false := by
  decide

end Scoreboard

end Gem5.Minor
