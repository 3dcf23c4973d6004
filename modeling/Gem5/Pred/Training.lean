import Gem5.Pred.BranchPredictor

namespace Gem5.Pred

open Lib List Function BPredUnit

/-! What the direction predictor is trained with, against what the branches do. -/

/-- Where a branch was predicted to go, whether it is taken, and where it goes. -/
structure Outcome (PC : Type) where
  predicted : PC
  taken : Bool
  target : PC

/-- The unit, the youngest branch, and the outcomes of the branches. -/
structure Training (PC : Type) where
  unit : BPredUnit PC
  lastSeqNum : Nat
  outcomes : Nat → Outcome PC

namespace Training

variable {PC : Type} (cfg : BPredConfig PC)

/-- A branch comes with what it will do. -/
inductive Move (PC : Type)
  | predict (inst : BranchInst) (seqNum : Nat) (pc : PC) (tables : TableAnswers PC) (taken : Bool)
      (target : PC)
  | squash (squashedSn : Nat)
  | correct (squashedSn : Nat)
  | update (doneSn : Nat)

/-- How the pipeline calls the unit. Branches come in order; an unconditional one is taken, and one
that is not taken goes on to the next instruction. A branch is corrected, once, if it does not go
where it was predicted to, and before it commits. -/
def Enabled (w : Training PC) : Move PC → Prop
  | .predict inst seqNum _ tables taken target => w.lastSeqNum < seqNum ∧
      (inst.isUncondCtrl = true → taken = true) ∧ (taken = false → target = tables.next)
  | .squash _ => True
  | .correct squashedSn => (∃ r ∈ w.unit.predHist, r.seqNum = squashedSn ∧ r.wasSquashed = false) ∧
      (w.outcomes squashedSn).predicted ≠ (w.outcomes squashedSn).target
  | .update doneSn => ∀ r ∈ w.unit.predHist, r.seqNum ≤ doneSn → r.wasSquashed = true ∨
      (w.outcomes r.seqNum).predicted = (w.outcomes r.seqNum).target

instance [DecidableEq PC] (w : Training PC) (m : Move PC) : Decidable (Enabled w m) := by
  cases m <;> unfold Enabled <;> infer_instance

def apply (w : Training PC) : Move PC → Option (Training PC)
  | .predict inst seqNum pc tables taken target =>
    let (_, predicted, unit) := BPredUnit.predict cfg inst seqNum pc tables w.unit
    some
      { unit
        lastSeqNum := seqNum
        outcomes := Function.update w.outcomes seqNum { predicted, taken, target } }
  | .squash squashedSn => some { w with unit := BPredUnit.squash cfg squashedSn w.unit }
  | .correct squashedSn =>
    (BPredUnit.correct cfg squashedSn (w.outcomes squashedSn).taken w.unit).map
      (fun unit => { w with unit })
  | .update doneSn => some { w with unit := BPredUnit.update doneSn w.unit }

def move [DecidableEq PC] (w : Training PC) (m : Move PC) : Option (Training PC) :=
  if Enabled w m then apply cfg w m else none

def initial : Training PC where
  unit := BPredUnit.initial cfg
  lastSeqNum := 0
  outcomes := fun _ => { predicted := cfg.zero, taken := false, target := cfg.zero }

def machine [DecidableEq PC] : Machine (Training PC) (Move PC) where
  init w := w = initial cfg
  step w m w' := move cfg w m = some w'

/-- The target that the unit has for a branch: that of the return address stack, of the branch
target buffer or of the indirect predictor. -/
def lookedUp (w : Training PC) (inst : BranchInst) (pc : PC) (tables : TableAnswers PC) :
    Option PC :=
  if inst.isReturn then some (cfg.buildRetPC pc w.unit.ras.top)
  else if inst.isDirectCtrl || !cfg.useIndirect then tables.btb
  else tables.indirect

/-- Where the direction is wrong, the target is not to blame: for a branch that is said to be taken
and is not, a target is known that is not the next instruction; and one that is said not to be taken
and is goes elsewhere. -/
def DirectionTold (w : Training PC) : Move PC → Prop
  | .predict inst _ pc tables taken target =>
    ((inst.isUncondCtrl || tables.direction) = true → taken = false →
      ∃ t ∈ lookedUp cfg w inst pc tables, t ≠ tables.next) ∧
    ((inst.isUncondCtrl || tables.direction) = false → taken = true → target ≠ tables.next)
  | _ => True

instance [DecidableEq PC] (w : Training PC) (m : Move PC) : Decidable (DirectionTold cfg w m) := by
  cases m <;> unfold DirectionTold <;> infer_instance

variable {cfg} {w w' : Training PC}

/-- The direction that is recorded, of a branch that will not be corrected, is the actual one. -/
def Told (w : Training PC) (r : PredictorHistory PC) : Prop :=
  (w.outcomes r.seqNum).predicted = (w.outcomes r.seqNum).target →
    r.predTaken = (w.outcomes r.seqNum).taken

structure Trained (w : Training PC) : Prop where
  known : ∀ r ∈ w.unit.predHist, r.seqNum ≤ w.lastSeqNum
  told : ∀ r ∈ w.unit.predHist, Told w r
  past : ∀ e ∈ w.unit.trained, e.1 ≤ w.lastSeqNum
  trained : ∀ e ∈ w.unit.trained, e.2 = (w.outcomes e.1).taken

theorem squashYounger_sublist (cfg : BPredConfig PC) (squashedSn : Nat)
    (hist : List (PredictorHistory PC)) (ras : ReturnAddrStack PC) :
    (squashYounger cfg squashedSn hist ras).1.Sublist hist := by
  induction hist generalizing ras with
  | nil => exact .refl _
  | cons r rs ih =>
    unfold squashYounger
    split
    · exact (ih _).cons _
    · exact .refl _

theorem predictTarget_record (cfg : BPredConfig PC) (inst : BranchInst)
    (tables : TableAnswers PC) (r : PredictorHistory PC) (ras : ReturnAddrStack PC) :
    (predictTarget cfg inst tables r ras).2.2.1.seqNum = r.seqNum ∧
      (predictTarget cfg inst tables r ras).2.2.1.predTaken = r.predTaken ∧
      (predictTarget cfg inst tables r ras).2.1 =
        (if inst.isDirectCtrl || !cfg.useIndirect then tables.btb
          else tables.indirect).getD tables.next := by
  unfold predictTarget
  dsimp only
  generalize (if inst.isDirectCtrl || !cfg.useIndirect then tables.btb
    else tables.indirect) = answer
  cases answer with
  | some target => exact ⟨rfl, rfl, rfl⟩
  | none =>
    dsimp only
    split <;> exact ⟨rfl, rfl, rfl⟩

/-- The recorded direction is the one before the target is looked up. Where it is taken, the branch
is predicted to go to the target, or on if there is none; where it is not, to go on. -/
theorem predictRecord_direction (cfg : BPredConfig PC) (w : Training PC) (inst : BranchInst)
    (seqNum : Nat) (pc : PC) (tables : TableAnswers PC) :
    (predictRecord cfg inst seqNum pc tables w.unit.ras).2.2.1.seqNum = seqNum ∧
    (predictRecord cfg inst seqNum pc tables w.unit.ras).2.2.1.predTaken =
      (inst.isUncondCtrl || tables.direction) ∧
    (predictRecord cfg inst seqNum pc tables w.unit.ras).2.1 =
      if inst.isUncondCtrl || tables.direction then
        (lookedUp cfg w inst pc tables).getD tables.next
      else tables.next := by
  unfold predictRecord lookedUp
  dsimp only
  split
  · split
    · exact ⟨rfl, rfl, rfl⟩
    · split <;> exact predictTarget_record cfg inst tables _ _
  · exact ⟨rfl, rfl, rfl⟩

/-- A correction changes neither the branch nor the direction of a record. -/
theorem correctRecord_direction (cfg : BPredConfig PC) (taken : Bool) (r : PredictorHistory PC)
    (ras : ReturnAddrStack PC) :
    (correctRecord cfg taken r ras).1.seqNum = r.seqNum ∧
      (correctRecord cfg taken r ras).1.predTaken = r.predTaken := by
  unfold correctRecord
  dsimp only
  repeat' split
  all_goals exact ⟨rfl, rfl⟩

theorem Trained.predict (h : Trained w) {taken : Bool}
    (hen : Enabled w (.predict inst seqNum pc tables taken target))
    (hcond : DirectionTold cfg w (.predict inst seqNum pc tables taken target))
    (hstep : apply cfg w (.predict inst seqNum pc tables taken target) = some w') :
    Trained w' := by
  obtain ⟨hlast, -, hnext⟩ := hen
  obtain ⟨hseq, hdir, hgo⟩ := predictRecord_direction cfg w inst seqNum pc tables
  have heq : w' =
      { unit := { w.unit with
          predHist := (predictRecord cfg inst seqNum pc tables w.unit.ras).2.2.1 ::
            w.unit.predHist
          ras := (predictRecord cfg inst seqNum pc tables w.unit.ras).2.2.2 }
        lastSeqNum := seqNum
        outcomes := update w.outcomes seqNum
          { predicted := (predictRecord cfg inst seqNum pc tables w.unit.ras).2.1
            taken
            target } } := (Option.some.inj hstep).symm
  subst heq
  clear hstep
  generalize predictRecord cfg inst seqNum pc tables w.unit.ras = x at *
  have hold : ∀ {o : Outcome PC} {sn : Nat}, sn ≤ w.lastSeqNum →
      update w.outcomes seqNum o sn = w.outcomes sn :=
    fun hle => update_of_ne (by omega) _ _
  refine ⟨fun r hr => ?_, fun r hr => ?_, fun e he => ?_, fun e he => ?_⟩
  · rcases mem_cons.mp hr with rfl | hr
    · exact hseq.le
    · exact (h.known r hr).trans hlast.le
  · rcases mem_cons.mp hr with rfl | hr
    · unfold Told
      dsimp only
      rw [hseq, update_self, hdir]
      intro hsame
      cases hd : (inst.isUncondCtrl || tables.direction) with
      | true =>
        cases taken with
        | true => rfl
        | false =>
          obtain ⟨t, ht, hne⟩ := hcond.1 hd rfl
          rw [if_pos hd, ht, Option.getD_some] at hgo
          exact absurd (hgo.symm.trans (hsame.trans (hnext rfl))) hne
      | false =>
        cases taken with
        | true =>
          rw [if_neg (by simp [hd])] at hgo
          exact absurd (hsame.symm.trans hgo) (hcond.2 hd rfl)
        | false => rfl
    · unfold Told
      dsimp only
      rw [hold (h.known r hr)]
      exact h.told r hr
  · exact (h.past e he).trans hlast.le
  · dsimp only
    rw [hold (h.past e he)]
    exact h.trained e he

theorem Trained.squash (cfg : BPredConfig PC) (h : Trained w) (squashedSn : Nat) :
    Trained { w with unit := squash cfg squashedSn w.unit } :=
  have hsub := (squashYounger_sublist cfg squashedSn w.unit.predHist w.unit.ras).subset
  ⟨fun r hr => h.known r (hsub hr), fun r hr => h.told r (hsub hr), h.past, h.trained⟩

theorem Trained.correct (h : Trained w) {squashedSn : Nat} {unit : BPredUnit PC}
    (hcorrect : correct cfg squashedSn (w.outcomes squashedSn).taken w.unit = some unit) :
    Trained { w with unit } := by
  have hs := h.squash cfg squashedSn
  unfold BPredUnit.correct at hcorrect
  dsimp only at hcorrect
  split at hcorrect
  · cases hcorrect
    exact hs
  rename_i r rs hhist
  split_ifs at hcorrect with hseq
  have hmem : r ∈ (BPredUnit.squash cfg squashedSn w.unit).predHist :=
    hhist ▸ .head _
  obtain ⟨hseq', hdir'⟩ := correctRecord_direction cfg (w.outcomes squashedSn).taken r
    (BPredUnit.squash cfg squashedSn w.unit).ras
  cases hcorrect
  refine ⟨fun q hq => ?_, fun q hq => ?_, fun e he => ?_, fun e he => ?_⟩
  · rcases mem_cons.mp hq with rfl | hq
    · exact hseq'.le.trans (hs.known r hmem)
    · exact hs.known q (hhist ▸ .tail _ hq)
  · rcases mem_cons.mp hq with rfl | hq
    · unfold Told
      rw [hseq', hdir']
      exact hs.told r hmem
    · exact hs.told q (hhist ▸ .tail _ hq)
  · rcases mem_append.mp he with he | he
    · exact hs.past e he
    · rw [mem_singleton.mp he]
      exact (not_not.mp hseq).symm.le.trans (hs.known r hmem)
  · rcases mem_append.mp he with he | he
    · exact hs.trained e he
    · rw [mem_singleton.mp he]

theorem Trained.update (h : Trained w) (hen : Enabled w (.update doneSn)) :
    Trained { w with unit := update doneSn w.unit } := by
  have hdone : ∀ {r}, r ∈ w.unit.predHist.reverse.takeWhile (fun r => r.seqNum ≤ doneSn) →
      r ∈ w.unit.predHist ∧ r.seqNum ≤ doneSn := fun hr =>
    ⟨mem_reverse.mp ((takeWhile_sublist _).subset hr), by
      simpa using mem_takeWhile_imp hr⟩
  have hkeep : ∀ {r}, r ∈ (BPredUnit.update doneSn w.unit).predHist → r ∈ w.unit.predHist :=
    fun hr => mem_reverse.mp ((dropWhile_sublist _).subset (mem_reverse.mp hr))
  refine ⟨fun r hr => h.known r (hkeep hr), fun r hr => h.told r (hkeep hr), fun e he => ?_,
    fun e he => ?_⟩
  · rcases mem_append.mp he with he | he
    · exact h.past e he
    · obtain ⟨r, hr, rfl⟩ := mem_map.mp he
      exact h.known r (hdone (mem_filter.mp hr).1).1
  rcases mem_append.mp he with he | he
  · exact h.trained e he
  obtain ⟨r, hr, rfl⟩ := mem_map.mp he
  obtain ⟨hr, hlive⟩ := mem_filter.mp hr
  obtain ⟨hmem, hle⟩ := hdone hr
  refine h.told r hmem ((hen r hmem hle).resolve_left (fun hsq => ?_))
  rw [hsq] at hlive
  cases hlive

variable [DecidableEq PC]

theorem Trained.step (h : Trained w) {m : Move PC} (hcond : DirectionTold cfg w m)
    (hstep : move cfg w m = some w') : Trained w' := by
  unfold move at hstep
  split_ifs at hstep with hen
  cases m with
  | predict inst seqNum pc tables taken target => exact h.predict hen hcond hstep
  | squash squashedSn =>
    cases hstep
    exact h.squash cfg squashedSn
  | correct squashedSn =>
    obtain ⟨unit, hcorrect, rfl⟩ := Option.map_eq_some_iff.mp hstep
    exact h.correct hcorrect
  | update doneSn =>
    cases hstep
    exact h.update hen

/-- While a branch that is not corrected goes where its recorded direction says, the direction
predictor is trained with what the branches do. -/
theorem training_uses_outcome (h : ((machine cfg).restrict (DirectionTold cfg)).Reachable w) :
    ∀ e ∈ w.unit.trained, e.2 = (w.outcomes e.1).taken := by
  have htrained : Trained w := by
    refine h.invariant (fun w hw => ?_) (fun w m w' hw hstep => ?_)
    · rw [show w = initial cfg from hw]
      exact ⟨forall_mem_nil _, forall_mem_nil _, forall_mem_nil _, forall_mem_nil _⟩
    · exact hw.step hstep.2 hstep.1
  exact htrained.trained

def smallConfig : BPredConfig Nat where
  numEntries := 4
  numEntries_pos := Nat.succ_pos _
  useIndirect := true
  buildRetPC := fun _ top => top + 4
  zero := 0

/-- A branch is corrected, and one after it commits as predicted. -/
theorem training_uses_outcome_corrected :
    ∃ w, ((machine smallConfig).restrict (DirectionTold smallConfig)).Reachable w ∧
      w.unit.trained = [(1, true), (2, false)] ∧
      ∀ e ∈ w.unit.trained, e.2 = (w.outcomes e.1).taken := by
  obtain ⟨w, hw, hP⟩ := Machine.exists_run
    (Machine.restrict_step (M := machine smallConfig) (f := move smallConfig)
      (fun _ _ _ hstep => hstep) (DirectionTold smallConfig)) (.start rfl)
    [.predict {} 1 0 { direction := false, btb := none, indirect := none, next := 4 } true 64,
      .correct 1,
      .predict {} 2 64 { direction := false, btb := none, indirect := none, next := 68 } false 68,
      .update 2] (P := fun w => w.unit.trained = [(1, true), (2, false)]) (by decide)
  exact ⟨w, hw, hP, training_uses_outcome hw⟩

/-- A branch is predicted taken, its target is not in the tables, and it is not taken: it goes where
it was predicted to, and the direction predictor is told that it was taken. -/
theorem trained_with_wrong_direction : ∃ w, (machine smallConfig).Reachable w ∧
    w.unit.trained = [(1, true)] ∧ (w.outcomes 1).taken = false := by
  exact Machine.exists_run (M := machine smallConfig) (f := move smallConfig)
    (fun _ _ _ hstep => hstep) (.start rfl)
    [.predict {} 1 0 { direction := true, btb := none, indirect := none, next := 4 } false 4,
      .update 1] (by decide)

end Training

end Gem5.Pred
