import Gem5.Pred.ReturnStack

namespace Gem5.Pred

open Lib List BPredUnit Machine

/-! The return address stack after squashes and corrections. -/

/-- The unit, the branches that have not been squashed with the outcomes that count, the youngest
instruction that has committed and the youngest branch. -/
structure Recovery (PC : Type) where
  unit : BPredUnit PC
  survivors : List (Branch PC)
  committed : Nat
  lastSeqNum : Nat

namespace Recovery

variable {PC : Type} (cfg : BPredConfig PC)

inductive Move (PC : Type)
  | predict (inst : BranchInst) (seqNum : Nat) (pc : PC) (tables : TableAnswers PC)
  | squash (squashedSn : Nat)
  | correct (squashedSn : Nat) (actuallyTaken : Bool)
  | update (doneSn : Nat)

def predicted (inst : BranchInst) (seqNum : Nat) (pc : PC) (tables : TableAnswers PC)
    (u : BPredUnit PC) : Branch PC where
  seqNum := seqNum
  pc := pc
  inst := inst
  taken := (BPredUnit.predict cfg inst seqNum pc tables u).1 || inst.isUncondCtrl

def upTo (squashedSn : Nat) (branches : List (Branch PC)) : List (Branch PC) :=
  branches.filter (fun b => b.seqNum ≤ squashedSn)

def setTaken (seqNum : Nat) (taken : Bool) (branches : List (Branch PC)) : List (Branch PC) :=
  branches.map (fun b => if b.seqNum = seqNum then { b with taken } else b)

section

variable (w : Recovery PC)
include w

def apply : Move PC → Option (Recovery PC)
  | .predict inst seqNum pc tables => some
      { w with
        unit := (BPredUnit.predict cfg inst seqNum pc tables w.unit).2.2
        survivors := w.survivors ++ [predicted cfg inst seqNum pc tables w.unit]
        lastSeqNum := seqNum }
  | .squash squashedSn => some
      { w with
        unit := BPredUnit.squash cfg squashedSn w.unit
        survivors := upTo squashedSn w.survivors }
  | .correct squashedSn actuallyTaken =>
    (BPredUnit.correct cfg squashedSn actuallyTaken w.unit).map (fun unit =>
      { w with
        unit
        survivors := setTaken squashedSn actuallyTaken (upTo squashedSn w.survivors) })
  | .update doneSn => some
      { w with
        unit := BPredUnit.update doneSn w.unit
        committed := doneSn }

/-- The number of return addresses that are live. -/
def live : Nat := (shadow cfg.numEntries w.survivors).stack.length

/-- How the pipeline calls the unit: branches come in order, and those that have committed are not
squashed. A call finds a cell for its return address. -/
def Enabled : Move PC → Prop
  | .predict inst seqNum _ tables => w.lastSeqNum < seqNum ∧ w.committed < seqNum ∧
      ((inst.isUncondCtrl || tables.direction) = true → inst.isCall = true →
        live cfg w < cfg.numEntries)
  | .squash squashedSn => w.committed ≤ squashedSn
  | .correct squashedSn _ => w.committed < squashedSn
  | .update doneSn => w.committed ≤ doneSn

instance (m : Move PC) : Decidable (Enabled cfg w m) := by
  cases m <;> unfold Enabled <;> infer_instance

/-- At every moment at most `numEntries` return addresses are live. -/
def move (m : Move PC) : Option (Recovery PC) :=
  if Enabled cfg w m then (apply cfg w m).filter (fun w => live cfg w ≤ cfg.numEntries) else none

end

def initial : Recovery PC where
  unit := BPredUnit.initial cfg
  survivors := []
  committed := 0
  lastSeqNum := 0

def machine : Machine (Recovery PC) (Move PC) where
  init w := w = initial cfg
  step w m w' := move cfg w m = some w'

/-- A return that has used the stack only when it was corrected: its record has no address to put
back. -/
def UsedLate (r : PredictorHistory PC) : Prop := r.usedRAS = true ∧ r.predTaken = false

instance (r : PredictorHistory PC) : Decidable (UsedLate r) := inferInstanceAs (Decidable (_ ∧ _))

/-- No return that has used the stack only when it was corrected is taken back, and no call that has
not pushed its return address is corrected to taken. -/
def Recoverable (w : Recovery PC) : Move PC → Prop
  | .squash squashedSn => ∀ r ∈ w.unit.predHist, squashedSn < r.seqNum → ¬ UsedLate r
  | .correct squashedSn actuallyTaken =>
    (∀ r ∈ w.unit.predHist, squashedSn < r.seqNum ∨ r.seqNum = squashedSn ∧ actuallyTaken = false →
      ¬ UsedLate r) ∧
    (actuallyTaken = true → ∀ b ∈ w.survivors, b.seqNum = squashedSn → b.inst.isCall = true →
      b.inst.isReturn = false → b.taken = true)
  | _ => True

instance (w : Recovery PC) (m : Move PC) : Decidable (Recoverable w m) := by
  cases m <;> unfold Recoverable <;> infer_instance

/-- No return that has used the stack is taken back. -/
def KeepsReturns (w : Recovery PC) : Move PC → Prop
  | .squash squashedSn => ∀ r ∈ w.unit.predHist, squashedSn < r.seqNum → r.usedRAS = false
  | .correct squashedSn actuallyTaken =>
    ∀ r ∈ w.unit.predHist, squashedSn < r.seqNum ∨ r.seqNum = squashedSn ∧ actuallyTaken = false →
      r.usedRAS = false
  | _ => True

instance (w : Recovery PC) (m : Move PC) : Decidable (KeepsReturns w m) := by
  cases m <;> unfold KeepsReturns <;> infer_instance

/-! The records tell what the branches have done to the stack. -/

variable {cfg} {n : Nat} {taken : Bool}

/-- A record and its branch, which has found the stack `a`. -/
structure Matches (r : PredictorHistory PC) (b : Branch PC) (a : Shadow PC) : Prop where
  seqNum : r.seqNum = b.seqNum
  wasReturn : r.wasReturn = b.inst.isReturn
  used : r.usedRAS = (b.taken && b.inst.isReturn)
  pushed : (r.wasCall && r.pushedRAS) = (b.taken && b.inst.isCall && !b.inst.isReturn)
  index : r.wasReturn = true → r.predTaken = true → r.rasIndex = a.tos
  target : r.wasReturn = true → r.predTaken = true → ∀ x l, a.stack = x :: l → r.rasTarget = x

/-- The records and the branches in flight, the youngest first, after the branches `done`. -/
inductive Chain (n : Nat) (done : List (Branch PC)) :
    List (PredictorHistory PC) → List (Branch PC) → Prop
  | nil : Chain n done [] []
  | cons {r : PredictorHistory PC} {b : Branch PC} {rs : List (PredictorHistory PC)}
      {bs : List (Branch PC)} (rest : Chain n done rs bs)
      (hmatch : Matches r b (shadow n (done ++ bs.reverse))) : Chain n done (r :: rs) (b :: bs)

/-- The record tells whether the branch has popped, pushed or left the stack alone. -/
theorem Matches.effect (h : Matches r b a) (n : Nat) :
    (r.usedRAS = true ∧ b.inst.isReturn = true ∧ b.onShadow n a = a.pop n) ∨
    (r.usedRAS = false ∧ (r.wasCall && r.pushedRAS) = true ∧ b.onShadow n a = a.push n b.pc) ∨
    (r.usedRAS = false ∧ (r.wasCall && r.pushedRAS) = false ∧ b.onShadow n a = a) := by
  rw [h.used, h.pushed]
  unfold Branch.onShadow
  cases b.taken <;> cases b.inst.isReturn <;> cases b.inst.isCall <;> simp

/-- Undoing the youngest branch gives back the stack that it has found. -/
theorem Matches.undo (h : Matches r b a) (hlate : ¬ UsedLate r)
    (hs : Represents cfg.numEntries right s (b.onShadow cfg.numEntries a))
    (hbound : a.tos < cfg.numEntries) (hle : a.stack.length ≤ cfg.numEntries)
    (hafter : (b.onShadow cfg.numEntries a).stack.length ≤ cfg.numEntries) :
    Represents cfg.numEntries (right ∧ r.usedRAS = false) (undo cfg r s) a := by
  unfold BPredUnit.undo
  rcases h.effect cfg.numEntries with ⟨hused, hret, heq⟩ | ⟨hused, hpushed, heq⟩ |
    ⟨hused, hpushed, heq⟩ <;> rw [heq] at hs hafter
  · have hreturn : r.wasReturn = true := h.wasReturn.trans hret
    have hpred : r.predTaken = true := by
      by_contra hno
      exact hlate ⟨hused, eq_false_of_ne_true hno⟩
    rw [if_pos hused, h.index hreturn hpred]
    exact hs.restore hbound hle (h.target hreturn hpred) (by simp [hused])
  · rw [if_neg (by simp [hused]), if_pos hpushed]
    exact (hs.unpush hbound hafter).mono And.left
  · rw [if_neg (by simp [hused]), if_neg (by simp [hpushed])]
    exact hs.mono And.left

/-- The branches after an instruction are taken back one after the other. -/
theorem Chain.squash {done live : List (Branch PC)} (h : Chain cfg.numEntries done hist live)
    (hsorted : live.Pairwise (fun b c => c.seqNum < b.seqNum))
    (hfits : Fits cfg.numEntries (done ++ live.reverse))
    (hs : Represents cfg.numEntries right s (shadow cfg.numEntries (done ++ live.reverse)))
    (hlate : ∀ r ∈ hist, squashedSn < r.seqNum → ¬ UsedLate r) :
    Chain cfg.numEntries done (squashYounger cfg squashedSn hist s).1
      (upTo squashedSn live) ∧
    Represents cfg.numEntries (right ∧ ∀ r ∈ hist, squashedSn < r.seqNum → r.usedRAS = false)
      (squashYounger cfg squashedSn hist s).2
      (shadow cfg.numEntries (done ++ (upTo squashedSn live).reverse)) := by
  induction h generalizing s right with
  | nil => exact ⟨.nil, hs.mono And.left⟩
  | @cons r b rs bs rest hmatch ih =>
    obtain ⟨hbs, hsorted'⟩ := pairwise_cons.mp hsorted
    unfold squashYounger
    by_cases hlt : squashedSn < r.seqNum
    · have hup : upTo squashedSn (b :: bs) = upTo squashedSn bs := by
        refine filter_cons_of_neg ?_
        rw [decide_eq_true_eq, ← hmatch.seqNum]
        exact Nat.not_le_of_lt hlt
      have hafter := hfits.self
      rw [shadow_cons] at hs hafter
      have hs' := hmatch.undo (hlate r mem_cons_self hlt) hs
        (shadow_bound cfg.numEntries_pos _) hfits.cons_tail.self hafter
      obtain ⟨h1, h2⟩ := ih hsorted' hfits.cons_tail hs' (fun q hq => hlate q (.tail _ hq))
      rw [if_pos hlt, hup]
      exact ⟨h1, h2.mono (fun ⟨hr, hno⟩ =>
        ⟨⟨hr, hno r mem_cons_self hlt⟩, fun q hq => hno q (.tail _ hq)⟩)⟩
    · have hall : upTo squashedSn (b :: bs) = b :: bs := by
        refine filter_eq_self.mpr (fun c hc => ?_)
        rw [decide_eq_true_eq]
        have hb := hmatch.seqNum
        rcases mem_cons.mp hc with rfl | hc
        · omega
        · have := hbs c hc
          omega
      rw [if_neg hlt, hall]
      exact ⟨.cons rest hmatch, hs.mono And.left⟩

/-- A correction gives the branch its other outcome, on its record and on the stack. -/
theorem Matches.correct (h : Matches r b a) (taken : Bool) (hlate : taken = false → ¬ UsedLate r)
    (hcall : taken = true → b.inst.isCall = true → b.inst.isReturn = false → b.taken = true)
    (hs : Represents cfg.numEntries right s (b.onShadow cfg.numEntries a))
    (hbound : a.tos < cfg.numEntries) (hle : a.stack.length ≤ cfg.numEntries)
    (hafter : (b.onShadow cfg.numEntries a).stack.length ≤ cfg.numEntries) :
    Matches (correctRecord cfg taken r s).1 { b with taken } a ∧
    Represents cfg.numEntries (right ∧ (taken = false → r.usedRAS = false))
      (correctRecord cfg taken r s).2
      (({ b with taken } : Branch PC).onShadow cfg.numEntries a) := by
  cases taken with
  | false =>
    have hsame : (BPredUnit.correctRecord cfg false r s).2 = BPredUnit.undo cfg r s := by
      unfold BPredUnit.correctRecord BPredUnit.undo
      rw [if_neg (by decide)]
      split
      · rfl
      · split <;> rfl
    rw [hsame]
    refine ⟨?_, (h.undo (hlate rfl) hs hbound hle hafter).mono (fun ⟨hr, hno⟩ => ⟨hr, hno rfl⟩)⟩
    unfold correctRecord
    rw [if_neg (by decide)]
    rcases h.effect cfg.numEntries with ⟨hused, hret, -⟩ | ⟨hused, hpushed, -⟩ | ⟨hused, hpushed, -⟩
    · rw [if_pos hused]
      refine { h with used := rfl, pushed := h.pushed.trans ?_ }
      rw [hret]
      cases b.taken <;> cases b.inst.isCall <;> rfl
    · rw [if_neg (by simp [hused]), if_pos hpushed]
      exact { h with used := hused, pushed := Bool.and_false _ }
    · rw [if_neg (by simp [hused]), if_neg (by simp [hpushed])]
      exact { h with used := hused, pushed := hpushed }
  | true =>
    have hused := h.used
    unfold correctRecord
    rw [if_pos rfl]
    cases htaken : b.taken with
    | true =>
      rw [if_neg (by rw [h.wasReturn, hused, htaken]; cases b.inst.isReturn <;> decide),
        show ({ b with taken := true } : Branch PC) = b by rw [← htaken]]
      exact ⟨{ h with }, hs.mono And.left⟩
    | false =>
      have hpushed := h.pushed
      unfold Branch.onShadow at hs ⊢
      rw [htaken] at hused hpushed hs
      cases hret : b.inst.isReturn with
      | true =>
        rw [if_pos (by rw [h.wasReturn, hused, hret]; rfl)]
        refine ⟨{ h with used := ?_, pushed := hpushed.trans ?_ }, (hs.pop hle).mono And.left⟩
        · rw [hret]
          rfl
        · rw [hret]
          cases b.inst.isCall <;> rfl
      | false =>
        -- a call has been taken, and other branches do not use the stack
        have hno : b.inst.isCall = false := by
          rw [Bool.eq_false_iff]
          exact fun hc => absurd (htaken.symm.trans (hcall rfl hc hret)) (by decide)
        rw [if_neg (by simp [h.wasReturn, hret]), hno]
        refine ⟨{ h with used := hused.trans ?_, pushed := hpushed.trans ?_ }, hs.mono And.left⟩
        · rw [hret]
          rfl
        · rw [hno]
          rfl

/-- What a branch that is not a return has found and left: `s` is the stack with its return address,
if it is a call. -/
theorem predictTarget_spec
    (hx : predictTarget cfg inst tables r s = (taken, target, q, t))
    (hreturn : inst.isReturn = false) (hwas : r.wasReturn = false) (hused : r.usedRAS = false)
    (hpushed : (r.wasCall && r.pushedRAS) = inst.isCall)
    (hs : Represents cfg.numEntries right s (if inst.isCall then a.push cfg.numEntries r.pc else a))
    (hbound : a.tos < cfg.numEntries)
    (hroom : inst.isCall = true → a.stack.length < cfg.numEntries) :
    Matches q ⟨r.seqNum, r.pc, inst, taken || inst.isUncondCtrl⟩ a ∧
    Represents cfg.numEntries right t ((⟨r.seqNum, r.pc, inst, taken || inst.isUncondCtrl⟩ :
      Branch PC).onShadow cfg.numEntries a) := by
  have hno : r.wasReturn = true → False := by
    rw [hwas]
    exact nofun
  have hkept : (⟨r.seqNum, r.pc, inst, true⟩ : Branch PC).onShadow cfg.numEntries a =
      if inst.isCall then a.push cfg.numEntries r.pc else a := by
    unfold Branch.onShadow
    rw [if_pos rfl, hreturn, if_neg (by decide)]
  have hcount : (true && inst.isCall && !inst.isReturn) = inst.isCall := by
    rw [hreturn]
    cases inst.isCall <;> rfl
  unfold predictTarget at hx
  dsimp only at hx
  split at hx
  · -- a target is found
    cases hx
    rw [Bool.true_or, hkept]
    refine ⟨⟨rfl, hwas.trans hreturn.symm, ?_, hpushed.trans hcount.symm, fun h => (hno h).elim,
      fun h => (hno h).elim⟩, hs⟩
    rw [hreturn]
    exact hused
  split_ifs at hx with hcond
  · -- a conditional call
    rename_i hcond
    obtain ⟨hcall, huncond⟩ := Bool.and_eq_true_iff.mp hcond
    cases hx
    rw [Bool.false_or, show inst.isUncondCtrl = false by simpa using huncond]
    rw [hcall, if_pos rfl] at hs
    exact ⟨⟨rfl, hwas.trans hreturn.symm, hused, Bool.and_false _, fun h => (hno h).elim,
      fun h => (hno h).elim⟩, hs.unpush hbound (hroom hcall)⟩
  · cases hx
    rw [Bool.false_or]
    cases huncond : inst.isUncondCtrl with
    | true =>
      rw [hkept]
      refine ⟨⟨rfl, hwas.trans hreturn.symm, ?_, hpushed.trans hcount.symm,
        fun h => (hno h).elim, fun h => (hno h).elim⟩, hs⟩
      rw [hreturn]
      exact hused
    | false =>
      have hcall : inst.isCall = false := by
        rw [huncond] at hcond
        simpa using hcond
      rw [hcall, if_neg (by decide)] at hs
      exact ⟨⟨rfl, hwas.trans hreturn.symm, hused, hpushed.trans hcall, fun h => (hno h).elim,
        fun h => (hno h).elim⟩, hs⟩

theorem predictRecord_spec
    (hx : predictRecord cfg inst seqNum pc tables s = (taken, target, q, t))
    (hs : Represents cfg.numEntries right s a) (hle : a.stack.length ≤ cfg.numEntries)
    (hroom : (inst.isUncondCtrl || tables.direction) = true → inst.isCall = true →
      a.stack.length < cfg.numEntries) :
    Matches q ⟨seqNum, pc, inst, taken || inst.isUncondCtrl⟩ a ∧
    Represents cfg.numEntries right t ((⟨seqNum, pc, inst, taken || inst.isUncondCtrl⟩ :
      Branch PC).onShadow cfg.numEntries a) := by
  unfold predictRecord at hx
  dsimp only at hx
  split at hx
  · rename_i hpred
    split at hx
    · -- a return
      rename_i hreturn
      cases hx
      have hpop : (⟨seqNum, pc, inst, true⟩ : Branch PC).onShadow cfg.numEntries a =
          a.pop cfg.numEntries := by
        unfold Branch.onShadow
        rw [if_pos rfl, if_pos hreturn]
      rw [Bool.true_or, hpop]
      refine ⟨⟨rfl, hreturn.symm, ?_, ?_, fun _ _ => hs.tos, fun _ _ x l hstack => ?_⟩, hs.pop hle⟩
      · rw [hreturn]
        rfl
      · rw [hreturn]
        cases inst.isCall <;> rfl
      · have hcell := hs.cells 0 x (by rw [hstack]; rfl)
        rw [slot_zero hs.bound, ← hs.tos] at hcell
        exact hcell
    · rename_i hreturn
      have hreturn := eq_false_of_ne_true hreturn
      split_ifs at hx with hcall
      · -- a call
        rename_i hcall
        have hpush : (if inst.isCall then a.push cfg.numEntries pc else a) =
            a.push cfg.numEntries pc := if_pos hcall
        exact predictTarget_spec (a := a) hx hreturn rfl rfl hcall.symm
          (by rw [hpush]; exact hs.push (hroom hpred hcall) pc) hs.bound
          (fun _ => hroom hpred hcall)
      · have hcall := eq_false_of_ne_true hcall
        have hsame : (if inst.isCall then a.push cfg.numEntries pc else a) = a :=
          if_neg (by rw [hcall]; decide)
        exact predictTarget_spec (a := a) hx hreturn rfl rfl hcall.symm
          (hsame.symm ▸ hs) hs.bound (fun h => by rw [hcall] at h; cases h)
  · -- predicted not taken
    rename_i hpred
    cases hx
    have huncond : inst.isUncondCtrl = false := by
      cases h : inst.isUncondCtrl with
      | false => rfl
      | true =>
        rw [h, Bool.true_or] at hpred
        exact absurd rfl hpred
    rw [huncond, Bool.false_or] at hpred ⊢
    exact ⟨⟨rfl, rfl, rfl, rfl, fun _ h => absurd h hpred, fun _ h => absurd h hpred⟩, hs⟩

theorem Chain.split {done live : List (Branch PC)} (h : Chain n done (hist ++ hist') live) :
    ∃ l l', live = l ++ l' ∧ Chain n done hist' l' ∧ Chain n (done ++ l'.reverse) hist l := by
  induction hist generalizing live with
  | nil => exact ⟨[], live, rfl, h, .nil⟩
  | cons r rs ih =>
    cases h with
    | @cons _ b _ bs rest hmatch =>
      obtain ⟨l, l', rfl, hdone, hkeep⟩ := ih rest
      refine ⟨b :: l, l', rfl, hdone, .cons hkeep ?_⟩
      rwa [reverse_append, ← append_assoc] at hmatch

theorem Chain.seqNums {done live : List (Branch PC)} (h : Chain n done hist live) :
    hist.map PredictorHistory.seqNum = live.map Branch.seqNum := by
  induction h with
  | nil => rfl
  | cons _ hmatch ih => rw [map_cons, map_cons, ih, hmatch.seqNum]

/-- The branches that survive have committed or are in flight, with a record each, and the stack is
theirs. -/
structure Tracked (cfg : BPredConfig PC) (right : Prop) (w : Recovery PC)
    (done live : List (Branch PC)) : Prop where
  survivors : w.survivors = done ++ live.reverse
  chain : Chain cfg.numEntries done w.unit.predHist live
  committed : ∀ b ∈ done, b.seqNum ≤ w.committed
  inFlight : ∀ b ∈ live, w.committed < b.seqNum
  sorted : live.Pairwise (fun b c => c.seqNum < b.seqNum)
  known : ∀ b ∈ live, b.seqNum ≤ w.lastSeqNum
  ras : Represents cfg.numEntries right w.unit.ras (shadow cfg.numEntries w.survivors)
  fits : Fits cfg.numEntries w.survivors

variable {right : Prop} {w w' : Recovery PC} {done inflight : List (Branch PC)}

theorem Tracked.predict (h : Tracked cfg right w done inflight)
    (hen : Enabled cfg w (.predict inst seqNum pc tables))
    (hstep : apply cfg w (.predict inst seqNum pc tables) = some w')
    (hlive : live cfg w' ≤ cfg.numEntries) :
    ∃ inflight', Tracked cfg right w' done inflight' := by
  obtain ⟨hlast, hcommitted, hroom⟩ := hen
  obtain ⟨taken, target, q, t, hx⟩ : ∃ taken target q t,
      predictRecord cfg inst seqNum pc tables w.unit.ras = (taken, target, q, t) :=
    ⟨_, _, _, _, rfl⟩
  obtain ⟨hmatch, hrep⟩ := predictRecord_spec hx h.ras h.fits.self hroom
  have hpredict : BPredUnit.predict cfg inst seqNum pc tables w.unit =
      (taken, target, { w.unit with predHist := q :: w.unit.predHist, ras := t }) := by
    unfold BPredUnit.predict
    rw [hx]
  have heq : w' =
      { w with
        unit := { w.unit with predHist := q :: w.unit.predHist, ras := t }
        survivors := w.survivors ++ [⟨seqNum, pc, inst, taken || inst.isUncondCtrl⟩]
        lastSeqNum := seqNum } := by
    refine (Option.some.inj hstep).symm.trans ?_
    unfold predicted
    rw [hpredict]
  subst heq
  refine ⟨⟨seqNum, pc, inst, taken || inst.isUncondCtrl⟩ :: inflight, ?_, ?_, h.committed, ?_, ?_,
    ?_, ?_, h.fits.snoc hlive⟩
  · rw [reverse_cons, ← append_assoc, ← h.survivors]
  · refine .cons h.chain ?_
    rwa [← h.survivors]
  · intro b hb
    rcases mem_cons.mp hb with rfl | hb
    · exact hcommitted
    · exact h.inFlight b hb
  · refine pairwise_cons.mpr ⟨fun b hb => ?_, h.sorted⟩
    exact (h.known b hb).trans_lt hlast
  · intro b hb
    rcases mem_cons.mp hb with rfl | hb
    · exact le_rfl
    · exact (h.known b hb).trans hlast.le
  · rw [shadow_snoc]
    exact hrep

theorem upTo_append (hdone : ∀ b ∈ done, b.seqNum ≤ squashedSn) :
    upTo squashedSn (done ++ inflight.reverse) = done ++ (upTo squashedSn inflight).reverse := by
  unfold upTo
  rw [filter_append, filter_reverse, filter_eq_self.mpr (fun b hb => ?_)]
  exact decide_eq_true (hdone b hb)

theorem upTo_initialPart (squashedSn : Nat)
    (hsorted : inflight.Pairwise (fun b c => c.seqNum < b.seqNum)) :
    done ++ (upTo squashedSn inflight).reverse <+: done ++ inflight.reverse := by
  rw [prefix_append_right_inj, reverse_prefix]
  unfold upTo
  induction inflight with
  | nil => exact suffix_refl _
  | cons b bs ih =>
    obtain ⟨hb, hsorted⟩ := pairwise_cons.mp hsorted
    by_cases hle : b.seqNum ≤ squashedSn
    · rw [filter_eq_self.mpr (fun c hc => ?_)]
      rw [decide_eq_true_eq]
      rcases mem_cons.mp hc with rfl | hc
      · exact hle
      · exact (hb c hc).le.trans hle
    · rw [filter_cons_of_neg (by rwa [decide_eq_true_eq])]
      exact (ih hsorted).trans (suffix_cons _ _)

theorem Tracked.squash (h : Tracked cfg right w done inflight) (hen : w.committed ≤ squashedSn)
    (hlate : ∀ r ∈ w.unit.predHist, squashedSn < r.seqNum → ¬ UsedLate r) :
    Tracked cfg (right ∧ ∀ r ∈ w.unit.predHist, squashedSn < r.seqNum → r.usedRAS = false)
      { w with
        unit := squash cfg squashedSn w.unit
        survivors := upTo squashedSn w.survivors } done (upTo squashedSn inflight) := by
  have hdone : ∀ b ∈ done, b.seqNum ≤ squashedSn := fun b hb => (h.committed b hb).trans hen
  have hfits := h.fits
  have hras := h.ras
  have hup : upTo squashedSn w.survivors = done ++ (upTo squashedSn inflight).reverse := by
    rw [h.survivors, upTo_append hdone]
  rw [h.survivors] at hfits hras
  obtain ⟨hchain, hrep⟩ := h.chain.squash h.sorted hfits hras hlate
  have hsub : ∀ {b}, b ∈ upTo squashedSn inflight → b ∈ inflight :=
    fun hb => (mem_filter.mp hb).1
  refine ⟨hup, hchain, h.committed, fun b hb => h.inFlight b (hsub hb), h.sorted.filter _,
    fun b hb => h.known b (hsub hb), ?_, ?_⟩
  · rw [hup]
    exact hrep
  · rw [hup]
    exact hfits.of_prefix (upTo_initialPart squashedSn h.sorted)

theorem Tracked.mono (h : Tracked cfg right w done inflight) (hle : right' → right) :
    Tracked cfg right' w done inflight :=
  { h with ras := h.ras.mono hle }

theorem squashYounger_subset : (squashYounger cfg squashedSn hist s).1 ⊆ hist := by
  induction hist generalizing s with
  | nil => exact List.Subset.refl _
  | cons r rs ih =>
    unfold squashYounger
    split
    · exact subset_cons_of_subset r ih
    · exact List.Subset.refl _

theorem setTaken_of_ne {seqNum : Nat} {branches : List (Branch PC)}
    (h : ∀ b ∈ branches, b.seqNum ≠ seqNum) : setTaken seqNum taken branches = branches := by
  refine map_congr_left (fun b hb => if_neg (h b hb)) |>.trans ?_
  exact map_id' branches

theorem setTaken_front {seqNum : Nat} {done bs : List (Branch PC)} {b : Branch PC}
    (hdone : ∀ c ∈ done, c.seqNum ≠ seqNum) (hbs : ∀ c ∈ bs, c.seqNum ≠ seqNum)
    (hb : b.seqNum = seqNum) :
    setTaken seqNum taken (done ++ (b :: bs).reverse) =
      done ++ (({ b with taken } : Branch PC) :: bs).reverse := by
  have happend : ∀ l m : List (Branch PC),
      setTaken seqNum taken (l ++ m) = setTaken seqNum taken l ++ setTaken seqNum taken m :=
    fun _ _ => map_append
  rw [reverse_cons, reverse_cons, happend, happend, setTaken_of_ne hdone,
    setTaken_of_ne (fun c hc => hbs c (mem_reverse.mp hc))]
  unfold setTaken
  rw [map_singleton, if_pos hb]

theorem Tracked.correct (h : Tracked cfg right w done inflight) {squashedSn : Nat}
    (hen : w.committed < squashedSn) (hcond : Recoverable w (.correct squashedSn taken))
    (hstep : apply cfg w (.correct squashedSn taken) = some w')
    (hlive : live cfg w' ≤ cfg.numEntries) :
    ∃ inflight',
      Tracked cfg (right ∧ KeepsReturns w (.correct squashedSn taken)) w' done inflight' := by
  obtain ⟨hlate, hcall⟩ := hcond
  have htracked := h.squash hen.le (fun r hr hlt => hlate r hr (.inl hlt))
  have hdone : ∀ b ∈ done, b.seqNum ≠ squashedSn := by
    intro b hb
    have := h.committed b hb
    omega
  have hsub : (BPredUnit.squash cfg squashedSn w.unit).predHist ⊆ w.unit.predHist :=
    squashYounger_subset
  have hin : upTo squashedSn inflight ⊆ inflight := List.filter_sublist.subset
  obtain ⟨u, hu, rfl⟩ := Option.map_eq_some_iff.mp hstep
  unfold correct at hu
  dsimp only at hu
  generalize BPredUnit.squash cfg squashedSn w.unit = q at *
  generalize upTo squashedSn inflight = kept at *
  have hchain := htracked.chain
  have hsurvivors : upTo squashedSn w.survivors = done ++ kept.reverse := htracked.survivors
  split at hu
  · -- the branch is not in flight
    rename_i hempty
    cases hu
    rw [hempty] at hchain
    cases hchain
    have hsame : setTaken squashedSn taken (upTo squashedSn w.survivors) =
        upTo squashedSn w.survivors := by
      rw [hsurvivors]
      refine setTaken_of_ne (fun b hb => hdone b ?_)
      rwa [reverse_nil, append_nil] at hb
    rw [hsame]
    exact ⟨[], htracked.mono (fun ⟨hr, hno⟩ => ⟨hr, fun r hr hlt => hno r hr (.inl hlt)⟩)⟩
  · rename_i r rs hhist
    split_ifs at hu with hseq
    have hseq : r.seqNum = squashedSn := not_not.mp hseq
    cases hu
    rw [hhist] at hchain
    cases hchain with
    | @cons _ b _ bs rest hmatch =>
      have hb : b.seqNum = squashedSn := hmatch.seqNum.symm.trans hseq
      obtain ⟨hbs, hsorted⟩ := pairwise_cons.mp htracked.sorted
      have hr : r ∈ w.unit.predHist := hsub (hhist ▸ mem_cons_self)
      have hmem : b ∈ w.survivors := by
        rw [h.survivors]
        exact mem_append_right _ (mem_reverse.mpr (hin mem_cons_self))
      have hras := htracked.ras
      have hfits := htracked.fits
      rw [hsurvivors] at hras hfits
      have hafter := hfits.self
      rw [shadow_cons] at hras hafter
      obtain ⟨hnew, hrep⟩ := hmatch.correct taken
        (fun htaken => hlate r hr (.inr ⟨hseq, htaken⟩))
        (fun htaken => hcall htaken b hmem hb) hras (shadow_bound cfg.numEntries_pos _)
        hfits.cons_tail.self hafter
      have hset : setTaken squashedSn taken (upTo squashedSn w.survivors) =
          done ++ (({ b with taken } : Branch PC) :: bs).reverse := by
        rw [hsurvivors]
        exact setTaken_front hdone (fun c hc => by have := hbs c hc; omega) hb
      unfold live at hlive
      rw [hset] at hlive ⊢
      refine ⟨{ b with taken } :: bs, rfl, .cons rest hnew, htracked.committed, ?_,
        pairwise_cons.mpr ⟨hbs, hsorted⟩, ?_, ?_, ?_⟩
      · intro c hc
        rcases mem_cons.mp hc with rfl | hc
        · exact htracked.inFlight b mem_cons_self
        · exact htracked.inFlight c (.tail _ hc)
      · intro c hc
        rcases mem_cons.mp hc with rfl | hc
        · exact htracked.known b mem_cons_self
        · exact htracked.known c (.tail _ hc)
      · rw [shadow_cons]
        exact hrep.mono (fun ⟨hr', hno⟩ => ⟨⟨hr', fun q hq hlt => hno q hq (.inl hlt)⟩,
          fun htaken => hno r hr (.inr ⟨hseq, htaken⟩)⟩)
      · rw [reverse_cons, ← append_assoc] at hlive ⊢
        exact hfits.cons_tail.snoc hlive

theorem lt_of_mem_dropWhile (doneSn : Nat) {hist : List (PredictorHistory PC)}
    (hsorted : hist.Pairwise (fun r q => r.seqNum < q.seqNum)) :
    ∀ r ∈ hist.dropWhile (fun r => r.seqNum ≤ doneSn), doneSn < r.seqNum := by
  induction hist with
  | nil => exact nofun
  | cons q qs ih =>
    obtain ⟨hq, hsorted⟩ := pairwise_cons.mp hsorted
    intro r hr
    rw [dropWhile_cons] at hr
    split_ifs at hr with hlt
    · exact ih hsorted r hr
    · rw [decide_eq_true_eq, not_le] at hlt
      rcases mem_cons.mp hr with rfl | hr
      · exact hlt
      · exact hlt.trans (hq r hr)

theorem Tracked.update (h : Tracked cfg right w done inflight) {doneSn : Nat}
    (hen : w.committed ≤ doneSn) :
    ∃ done' inflight', Tracked cfg right
      { w with
        unit := update doneSn w.unit
        committed := doneSn } done' inflight' := by
  have hseqs := h.chain.seqNums
  have hchain := h.chain
  have hsorted : w.unit.predHist.reverse.Pairwise (fun r q => r.seqNum < q.seqNum) := by
    rw [pairwise_reverse]
    have hmap : (inflight.map Branch.seqNum).Pairwise (fun x y => y < x) :=
      pairwise_map.mpr h.sorted
    rw [← hseqs] at hmap
    exact pairwise_map.mp hmap
  have hold : ∀ r ∈ w.unit.predHist.reverse.takeWhile (fun r => r.seqNum ≤ doneSn),
      r.seqNum ≤ doneSn := fun r hr => by simpa using mem_takeWhile_imp hr
  have hnew := lt_of_mem_dropWhile doneSn hsorted
  have hsplit : w.unit.predHist =
      (w.unit.predHist.reverse.dropWhile (fun r => r.seqNum ≤ doneSn)).reverse ++
        (w.unit.predHist.reverse.takeWhile (fun r => r.seqNum ≤ doneSn)).reverse := by
    rw [← reverse_append, takeWhile_append_dropWhile, reverse_reverse]
  rw [hsplit] at hchain
  obtain ⟨l, l', rfl, hdone, hkeep⟩ := hchain.split
  have hmem : ∀ {hist : List (PredictorHistory PC)} {bs : List (Branch PC)},
      hist.map PredictorHistory.seqNum = bs.map Branch.seqNum →
      ∀ b ∈ bs, ∃ r ∈ hist, r.seqNum = b.seqNum := by
    intro hist bs heq b hb
    have hin := mem_map_of_mem (f := Branch.seqNum) hb
    rw [← heq] at hin
    exact mem_map.mp hin
  obtain ⟨hsortedL, -, -⟩ := pairwise_append.mp h.sorted
  refine ⟨done ++ l'.reverse, l, ?_, hkeep, ?_, ?_, hsortedL,
    fun b hb => h.known b (mem_append_left _ hb), h.ras, h.fits⟩
  · exact h.survivors.trans (by rw [reverse_append, append_assoc])
  · intro b hb
    rcases mem_append.mp hb with hb | hb
    · exact (h.committed b hb).trans hen
    · obtain ⟨r, hr, hrb⟩ := hmem hdone.seqNums b (mem_reverse.mp hb)
      rw [← hrb]
      exact hold r (mem_reverse.mp hr)
  · intro b hb
    obtain ⟨r, hr, hrb⟩ := hmem hkeep.seqNums b hb
    rw [← hrb]
    exact hnew r (mem_reverse.mp hr)

/-- A move keeps the stack that of the survivors, and its count right if it was. -/
theorem Tracked.step (h : Tracked cfg right w done inflight) (hcond : Recoverable w m)
    (hstep : move cfg w m = some w') :
    ∃ done' inflight', Tracked cfg (right ∧ KeepsReturns w m) w' done' inflight' := by
  unfold move at hstep
  split_ifs at hstep with hen
  obtain ⟨hstep, hlive⟩ := Option.filter_eq_some_iff.mp hstep
  have hlive : live cfg w' ≤ cfg.numEntries := of_decide_eq_true hlive
  cases m with
  | predict inst seqNum pc tables =>
    obtain ⟨inflight', h'⟩ := h.predict hen hstep hlive
    exact ⟨done, inflight', h'.mono And.left⟩
  | squash squashedSn =>
    obtain rfl := Option.some.inj hstep
    exact ⟨done, _, h.squash hen hcond⟩
  | correct squashedSn taken => exact ⟨done, h.correct hen hcond hstep hlive⟩
  | update doneSn =>
    obtain rfl := Option.some.inj hstep
    obtain ⟨done', inflight', h'⟩ := h.update hen
    exact ⟨done', inflight', h'.mono And.left⟩

theorem tracked_initial : Tracked cfg True (initial cfg) [] [] where
  survivors := rfl
  chain := .nil
  committed := nofun
  inFlight := nofun
  sorted := .nil
  known := nofun
  ras := ⟨rfl, cfg.numEntries_pos, nofun, fun _ => rfl⟩
  fits := fun p hp => by
    rw [prefix_nil.mp hp]
    exact Nat.zero_le _

/-- The stack of the unit has the top and the live return addresses of the replay. -/
def SameAddresses (cfg : BPredConfig PC) (w : Recovery PC) : Prop :=
  w.unit.ras.tos = (replay cfg w.survivors).tos ∧
  ∀ i < (replay cfg w.survivors).usedEntries,
    w.unit.ras.addrStack (slot cfg.numEntries w.unit.ras.tos i) =
      (replay cfg w.survivors).addrStack (slot cfg.numEntries (replay cfg w.survivors).tos i)

instance [DecidableEq PC] (cfg : BPredConfig PC) (w : Recovery PC) :
    Decidable (SameAddresses cfg w) := inferInstanceAs (Decidable (_ ∧ _))

theorem Tracked.sameAddresses (h : Tracked cfg right w done inflight) : SameAddresses cfg w := by
  have hrep := replay_represents h.fits
  refine ⟨h.ras.tos.trans hrep.tos.symm, fun i hi => ?_⟩
  rw [hrep.used trivial] at hi
  have hx := getElem?_eq_getElem hi
  rw [h.ras.tos, hrep.tos, h.ras.cells i _ hx, hrep.cells i _ hx]

theorem Tracked.empty_eq (h : Tracked cfg right w done inflight) (hright : right) :
    w.unit.ras.empty = (replay cfg w.survivors).empty := by
  unfold ReturnAddrStack.empty
  rw [h.ras.used hright, (replay_represents h.fits).used trivial]

/-- The survivors are tracked in every state, and their count is right as long as `keeps`. -/
theorem tracked_reachable {keeps : Recovery PC → Move PC → Prop}
    (hkeeps : ∀ w m, keeps w m → Recoverable w m ∧ (right → KeepsReturns w m))
    (hw : ((machine cfg).restrict keeps).Reachable w) :
    ∃ done inflight, Tracked cfg right w done inflight := by
  refine hw.invariant (I := fun w => ∃ done inflight, Tracked cfg right w done inflight)
    (fun w h0 => ?_) (fun w m w' ⟨done, inflight, htracked⟩ hstep => ?_)
  · rw [show w = initial cfg from h0]
    exact ⟨[], [], tracked_initial.mono (fun _ => trivial)⟩
  · obtain ⟨hcond, hno⟩ := hkeeps w m hstep.2
    obtain ⟨done', inflight', h'⟩ := htracked.step hcond hstep.1
    exact ⟨done', inflight', h'.mono (fun hr => ⟨hr, hno hr⟩)⟩

/-- While no return that was popped only at its correction is taken back and no call that has not
pushed is corrected to taken, the stack has the top and the live addresses of the surviving
branches; while moreover no return that has popped is taken back, it is empty when theirs is. -/
theorem return_stack_recovered :
    (∀ w, ((machine cfg).restrict Recoverable).Reachable w → SameAddresses cfg w) ∧
    (∀ w, ((machine cfg).restrict (fun w m => Recoverable w m ∧ KeepsReturns w m)).Reachable w →
      SameAddresses cfg w ∧ w.unit.ras.empty = (replay cfg w.survivors).empty) := by
  constructor
  · intro w hw
    obtain ⟨done, inflight, htracked⟩ :=
      tracked_reachable  (fun _ _ hcond => ⟨hcond, False.elim⟩) hw
    exact htracked.sameAddresses
  · intro w hw
    obtain ⟨done, inflight, htracked⟩ :=
      tracked_reachable  (fun _ _ hcond => ⟨hcond.1, fun _ => hcond.2⟩) hw
    exact ⟨htracked.sameAddresses, htracked.empty_eq trivial⟩

def fourCells : BPredConfig Nat where
  numEntries := 4
  numEntries_pos := by decide
  useIndirect := true
  buildRetPC := fun _ top => top + 4
  zero := 0

def known (direction : Bool) : TableAnswers Nat where
  direction
  btb := some 64
  indirect := none
  next := 4

/-- A return and a call after it are squashed; a call alone is squashed. -/
theorem return_stack_recovered_call : (∃ w, ((machine fourCells).restrict Recoverable).Reachable w ∧
      w.survivors.map Branch.seqNum = [1] ∧ w.unit.ras.tos = 1 ∧ SameAddresses fourCells w) ∧
    (∃ w,
      ((machine fourCells).restrict (fun w m => Recoverable w m ∧ KeepsReturns w m)).Reachable w ∧
      w.survivors.map Branch.seqNum = [1] ∧
      w.unit.ras.empty = (replay fourCells w.survivors).empty) := by
  constructor
  · obtain ⟨w, hw, hsurvivors, htos⟩ := exists_run (restrict_step (M := machine fourCells)
        (f := move fourCells) (fun _ _ _ hstep => hstep) Recoverable) (.start rfl)
      [.predict { isUncondCtrl := true, isCall := true } 1 8 (known true),
        .predict { isUncondCtrl := true, isReturn := true } 2 64 (known true),
        .predict { isUncondCtrl := true, isCall := true } 3 12 (known true),
        .squash 1]
      (P := fun w => w.survivors.map Branch.seqNum = [1] ∧ w.unit.ras.tos = 1) (by decide)
    exact ⟨w, hw, hsurvivors, htos, return_stack_recovered.1 w hw⟩
  · obtain ⟨w, hw, hP⟩ := exists_run (restrict_step (M := machine fourCells)
        (f := move fourCells) (fun _ _ _ hstep => hstep)
        (fun w m => Recoverable w m ∧ KeepsReturns w m)) (.start rfl)
      [.predict { isUncondCtrl := true, isCall := true } 1 8 (known true),
        .predict { isUncondCtrl := true, isCall := true } 2 12 (known true),
        .squash 1]
      (P := fun w => w.survivors.map Branch.seqNum = [1]) (by decide)
    exact ⟨w, hw, hP, (return_stack_recovered.2 w hw).2⟩

/-- After a squash the stack differs from that of the surviving branches: a return that has popped
is squashed, and the stack with one live address is empty; a call that was not taken is corrected to
taken, and nothing is pushed; a return is corrected to taken and squashed, and the top cell is
overwritten. -/
theorem squashed_stack_differs :
    (∃ w w', (machine fourCells).Reachable w ∧ (machine fourCells).step w (.squash 1) w' ∧
      w'.unit.ras.empty = true ∧ (replay fourCells w'.survivors).empty = false) ∧
    (∃ w w', (machine fourCells).Reachable w ∧ (machine fourCells).step w (.correct 1 true) w' ∧
      ¬ SameAddresses fourCells w') ∧
    (∃ w w', (machine fourCells).Reachable w ∧ (machine fourCells).step w (.squash 1) w' ∧
      ¬ SameAddresses fourCells w') := by
  have hstart : (machine fourCells).Reachable (initial fourCells) := .start rfl
  refine ⟨?_, ?_, ?_⟩
  · exact exists_run_next (f := move fourCells) (fun _ _ _ h => h) hstart
      [.predict { isUncondCtrl := true, isCall := true } 1 8 (known true),
        .predict { isUncondCtrl := true, isReturn := true } 2 64 (known true)] (by decide)
  · exact exists_run_next (f := move fourCells) (fun _ _ _ h => h) hstart
      [.predict { isCall := true } 1 8 (known false)] (by decide)
  · exact exists_run_next (f := move fourCells) (fun _ _ _ h => h) hstart
      [.predict { isUncondCtrl := true, isCall := true } 1 8 (known true),
        .predict { isReturn := true } 2 64 (known false), .correct 2 true] (by decide)

end Recovery

end Gem5.Pred
