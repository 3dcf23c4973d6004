import Gem5.Lib.Outcome
import Gem5.Lib.Transition

namespace Gem5.Sim

open Lib List Function Except Machine

/-! Draining: the manager asks the objects of the system to drain, and counts those that need more
simulation. -/

inductive DrainState
  | running | draining | drained
deriving DecidableEq

inductive DrainStop
  | panic (text : String)
  | assertion (text : String)
  | invalidIterator
deriving DecidableEq

/-- What the manager is doing when its objects are called: `tryDrain` is in `drain` of an object, or
`resume` in `drainResume` of one, and there are others to come. -/
inductive DrainCall
  | idle
  | draining (obj : Nat) (rest : List Nat)
  | resuming (obj : Nat) (rest : List Nat)
deriving DecidableEq

namespace DrainCall

def inDrain : DrainCall → Option Nat
  | .draining obj _ => some obj
  | _ => none

def inDrainResume : DrainCall → Option Nat
  | .resuming obj _ => some obj
  | _ => none

end DrainCall

/-- The manager with the objects that are registered. In addition there are the objects that have
been asked in this drain cycle, the exit events that have been requested, and whether one has been
since the cycle began. -/
structure DrainManager where
  count : Nat := 0
  state : DrainState := .running
  allDrainable : List Nat := []
  drainState : Nat → DrainState := fun _ => .running
  call : DrainCall := .idle
  asked : List Nat := []
  exits : List String := []
  finished : Bool := false

namespace DrainManager

/-- The counter is an unsigned number of 32 bits. -/
def countMod : Nat := 2 ^ 32

def setState (obj : Nat) (d : DrainState) (s : DrainManager) : DrainManager :=
  { s with drainState := Function.update s.drainState obj d }

/-- The loop of `tryDrain`, up to the next call of `drain`, or what comes after the loop. -/
def askNext (rest : List Nat) (s : DrainManager) : DrainManager :=
  match rest with
  | [] => { s with state := if s.count = 0 then .drained else s.state, call := .idle }
  | obj :: rest =>
    { s.setState obj .draining with asked := obj :: s.asked, call := .draining obj rest }

/-- The objects are visited in any order. -/
def tryDrain (order : List Nat) (s : DrainManager) : Except DrainStop DrainManager :=
  if s.state = .drained then .error (.panic "Trying to drain a drained system\n")
  else if s.count ≠ 0 then
    .error (.panic "Drain counter must be zero at the start of a drain cycle\n")
  else .ok (askNext order { s with state := .draining, asked := [], finished := false })

def drainReturns (status : DrainState) (s : DrainManager) : Except DrainStop DrainManager :=
  match s.call with
  | .draining obj rest =>
    if status = .running then
      .error (.assertion
        "_drainState == DrainState::Draining || _drainState == DrainState::Drained")
    else
      let s := s.setState obj status
      .ok (askNext rest
        { s with count := (s.count + if status = .drained then 0 else 1) % countMod })
  | _ => .ok s

def resumeNext (rest : List Nat) (s : DrainManager) : Except DrainStop DrainManager :=
  match rest with
  | [] => .ok { s with call := .idle }
  | obj :: rest =>
    if s.drainState obj ≠ .drained then
      .error (.panic "Trying to resume an object that hasn't been drained\n")
    else .ok { s.setState obj .running with call := .resuming obj rest }

def resume (order : List Nat) (s : DrainManager) : Except DrainStop DrainManager :=
  if s.state = .running then
    .error (.panic "Trying to resume a system that is already running\n")
  else if s.count ≠ 0 then
    .error (.panic "Resume called in the middle of a drain cycle. %u objects left to drain.\n")
  else resumeNext order { s with state := .running }

def drainResumeReturns (s : DrainManager) : Except DrainStop DrainManager :=
  match s.call with
  | .resuming _ rest => resumeNext rest s
  | _ => .ok s

def preCheckpointRestore (s : DrainManager) : Except DrainStop DrainManager :=
  if s.state ≠ .running then
    .error (.panic
      "preCheckpointRestore() called on a system that isn't in the Running state.\n")
  else .ok { s with
    state := .drained
    drainState := fun obj => if obj ∈ s.allDrainable then .drained else s.drainState obj }

/-- An object that is draining tells the manager that it is done. -/
def signalDrainDone (obj : Nat) (s : DrainManager) : DrainManager :=
  if s.drainState obj = .draining then
    let s := s.setState obj .drained
    let s := { s with count := (s.count + (countMod - 1)) % countMod }
    if s.count = 0 then { s with exits := "Finished drain" :: s.exits, finished := true } else s
  else s

/-- A new object has the state of the manager; a loop in progress may come to it. -/
def construct (obj : Nat) (visited : Bool) (s : DrainManager) : DrainManager :=
  let s := { s.setState obj s.state with allDrainable := obj :: s.allDrainable }
  match s.call with
  | .draining cur rest => { s with call := .draining cur (if visited then obj :: rest else rest) }
  | .resuming cur rest => { s with call := .resuming cur (if visited then obj :: rest else rest) }
  | .idle => s

/-- An object that a loop in progress is at cannot be taken out of the set. -/
def destroy (obj : Nat) (s : DrainManager) : Except DrainStop DrainManager :=
  let s := { s with allDrainable := s.allDrainable.erase obj }
  match s.call with
  | .draining cur rest =>
    if cur = obj then .error .invalidIterator
    else .ok { s with call := .draining cur (rest.erase obj) }
  | .resuming cur rest =>
    if cur = obj then .error .invalidIterator
    else .ok { s with call := .resuming cur (rest.erase obj) }
  | .idle => .ok s

/-- The calls of the manager, of the objects, and the returns of the objects that the manager has
called. -/
inductive Move
  | construct (obj : Nat) (visited : Bool)
  | destroy (obj : Nat)
  | tryDrain (order : List Nat)
  | drainReturns (status : DrainState)
  | resume (order : List Nat)
  | drainResumeReturns
  | preCheckpointRestore
  | signalDrainDone (obj : Nat)

/-- Objects are made and destroyed, and signal, at any time; the rest of the simulator calls the
manager when it is not in a call. -/
def Enabled (s : DrainManager) : Move → Prop
  | .construct obj _ => obj ∉ s.allDrainable
  | .destroy obj => obj ∈ s.allDrainable
  | .tryDrain order => s.call = .idle ∧ order.Perm s.allDrainable
  | .drainReturns _ => s.call.inDrain.isSome
  | .resume order => s.call = .idle ∧ order.Perm s.allDrainable
  | .drainResumeReturns => s.call.inDrainResume.isSome
  | .preCheckpointRestore => s.call = .idle
  | .signalDrainDone obj => obj ∈ s.allDrainable

instance (s : DrainManager) (m : Move) : Decidable (Enabled s m) := by
  cases m <;> unfold Enabled <;> infer_instance

def apply (s : DrainManager) : Move → Except DrainStop DrainManager
  | .construct obj visited => .ok (s.construct obj visited)
  | .destroy obj => s.destroy obj
  | .tryDrain order => s.tryDrain order
  | .drainReturns status => s.drainReturns status
  | .resume order => s.resume order
  | .drainResumeReturns => s.drainResumeReturns
  | .preCheckpointRestore => s.preCheckpointRestore
  | .signalDrainDone obj => .ok (s.signalDrainDone obj)

def machine : Machine DrainManager Move where
  init s := s = {}
  step s m s' := Enabled s m ∧ s.apply m = .ok s'

/-! What the counter counts. -/

def numDraining (s : DrainManager) : Nat :=
  s.allDrainable.countP (fun obj => s.drainState obj = .draining)

/-- An object is draining while `drain` has not returned, but is counted afterwards. -/
def uncounted (s : DrainManager) : Nat :=
  match s.call with
  | .draining _ _ => 1
  | _ => 0

/-- What a loop in progress has done, and what it has left to do. -/
def LoopState (s : DrainManager) : Prop :=
  match s.call with
  | .idle => s.state = .draining → ∀ obj ∈ s.allDrainable, obj ∈ s.asked
  | .draining obj rest => s.state = .draining ∧ s.finished = false ∧ s.drainState obj = .draining ∧
      (obj :: rest).Nodup ∧ (∀ o ∈ obj :: rest, o ∈ s.allDrainable) ∧
      (∀ o ∈ rest, s.drainState o ≠ .draining) ∧ ∀ o ∈ s.allDrainable, o ∈ s.asked ∨ o ∈ rest
  | .resuming _ _ => s.state = .running

structure Counts (s : DrainManager) : Prop where
  nodup : s.allDrainable.Nodup
  few : s.allDrainable.length < countMod
  count : s.count + s.uncounted = s.numDraining
  quiet : s.state ≠ .draining → s.numDraining = 0
  loop : s.LoopState
  finished : s.finished = true → s.count = 0

/-- Objects are not made while the system drains, and not destroyed while they drain; and while
`tryDrain` asks the objects, those that are done have been counted and are not the last ones that
are. -/
def Orderly (s : DrainManager) : Move → Prop
  | .construct _ _ => s.state ≠ .draining ∧ s.allDrainable.length + 1 < countMod
  | .destroy obj => s.drainState obj ≠ .draining
  | .signalDrainDone obj => s.drainState obj = .draining →
      ∀ cur ∈ s.call.inDrain, obj ≠ cur ∧ 1 < s.count
  | _ => True

instance (s : DrainManager) (m : Move) : Decidable (Orderly s m) := by
  cases m <;> unfold Orderly <;> infer_instance

variable {s s' : DrainManager}

theorem countP_update {l : List Nat} (hnodup : l.Nodup) {obj : Nat} (hobj : obj ∈ l)
    (f : Nat → DrainState) (d : DrainState) :
    l.countP (fun o => update f obj d o = .draining) + (if f obj = .draining then 1 else 0) =
      l.countP (fun o => f o = .draining) + (if d = .draining then 1 else 0) := by
  have hperm := perm_cons_erase hobj
  have hothers : (l.erase obj).countP (fun o => update f obj d o = .draining) =
      (l.erase obj).countP (fun o => f o = .draining) := by
    refine countP_congr (fun o ho => ?_)
    rw [update_of_ne (hnodup.mem_erase_iff.mp ho).1]
  rw [hperm.countP_eq, hperm.countP_eq (fun o => decide (f o = .draining)), countP_cons,
    countP_cons, hothers, update_self]
  simp only [decide_eq_true_eq]
  omega

theorem numDraining_setState (hnodup : s.allDrainable.Nodup) {obj : Nat}
    (hobj : obj ∈ s.allDrainable) (d : DrainState) :
    (s.setState obj d).numDraining + (if s.drainState obj = .draining then 1 else 0) =
      s.numDraining + (if d = .draining then 1 else 0) :=
  countP_update hnodup hobj s.drainState d

theorem numDraining_le (s : DrainManager) : s.numDraining ≤ s.allDrainable.length :=
  countP_le_length

theorem numDraining_pos (hobj : obj ∈ s.allDrainable)
    (h : s.drainState obj = .draining) : 0 < s.numDraining :=
  countP_pos_iff.mpr ⟨obj, hobj, by simp [h]⟩

theorem not_draining (h : s.numDraining = 0) (hobj : obj ∈ s.allDrainable) :
    s.drainState obj ≠ .draining := fun hno =>
  absurd h (Nat.pos_iff_ne_zero.mp (numDraining_pos hobj hno))

theorem numDraining_setState_same (h : s.drainState obj ≠ .draining)
    (hd : d ≠ .draining) : (s.setState obj d).numDraining = s.numDraining := by
  refine countP_congr (fun o _ => ?_)
  obtain rfl | ho := eq_or_ne o obj
  · simp [setState, h, hd]
  · simp [setState, ho]

/-- The loop of `tryDrain` between two objects. -/
structure Asking (rest : List Nat) (s : DrainManager) : Prop where
  nodup : s.allDrainable.Nodup
  few : s.allDrainable.length < countMod
  count : s.count = s.numDraining
  state : s.state = .draining
  finished : s.finished = false
  restNodup : rest.Nodup
  registered : ∀ o ∈ rest, o ∈ s.allDrainable
  ready : ∀ o ∈ rest, s.drainState o ≠ .draining
  asked : ∀ o ∈ s.allDrainable, o ∈ s.asked ∨ o ∈ rest

/-- The next object is asked, or all have been. -/
theorem Asking.askNext (h : Asking rest s) : Counts (s.askNext rest) := by
  cases rest with
  | nil =>
    refine ⟨h.nodup, h.few, h.count, fun hstate => ?_, fun _ o ho => ?_, fun hno => ?_⟩
    · have hzero : s.count = 0 := by
        by_contra hne
        exact hstate (by simp [DrainManager.askNext, hne, h.state])
      exact h.count.symm.trans hzero
    · exact (h.asked o ho).resolve_right not_mem_nil
    · exact absurd (hno.symm.trans h.finished) (by simp)
  | cons obj rest =>
    have hobj := h.registered obj mem_cons_self
    have hnum := numDraining_setState h.nodup hobj .draining
    rw [if_neg (h.ready obj mem_cons_self), if_pos rfl] at hnum
    refine ⟨h.nodup, h.few, ?_, fun hno => absurd h.state hno, ?_, fun hno => ?_⟩
    · exact (congrArg (· + 1) h.count).trans hnum.symm
    · refine ⟨h.state, h.finished, ?_, h.restNodup, h.registered, fun o ho => ?_, fun o ho => ?_⟩
      · exact update_self obj _ _
      · have hne : o ≠ obj := fun heq => (nodup_cons.mp h.restNodup).1 (heq ▸ ho)
        simpa [DrainManager.askNext, setState, hne] using h.ready o (.tail _ ho)
      · rcases h.asked o ho with hasked | hrest
        · exact .inl (.tail _ hasked)
        · rcases mem_cons.mp hrest with rfl | hrest
          · exact .inl mem_cons_self
          · exact .inr hrest
    · exact absurd (hno.symm.trans h.finished) (by simp)

section

variable (h : Counts s)
include h

theorem Counts.count_idle (hcall : s.call = .idle) : s.count = s.numDraining := by
  simpa only [uncounted, hcall, add_zero] using h.count

theorem Counts.tryDrain {order : List Nat} (hcall : s.call = .idle)
    (horder : order.Perm s.allDrainable) (hs : s.tryDrain order = .ok s') : Counts s' := by
  simp only [DrainManager.tryDrain, ite_error_eq_ok, not_not, ok.injEq] at hs
  obtain ⟨-, hzero, rfl⟩ := hs
  have hnone : s.numDraining = 0 := (h.count_idle hcall).symm.trans hzero
  apply Asking.askNext
  exact {
    nodup := h.nodup
    few := h.few
    count := h.count_idle hcall
    state := rfl
    finished := rfl
    restNodup := horder.nodup_iff.mpr h.nodup
    registered := fun o ho => horder.mem_iff.mp ho
    ready := fun o ho => not_draining hnone (horder.mem_iff.mp ho)
    asked := fun o ho => .inr (horder.mem_iff.mpr ho) }

/-- An object that is not done is counted when its `drain` returns. -/
theorem Counts.drainReturns (hcall : s.call = .draining obj rest)
    (hs : s.drainReturns status = .ok s') : Counts s' := by
  obtain ⟨hnodup, hfew, hcount, -, hloop, -⟩ := h
  simp only [uncounted, hcall] at hcount
  simp only [LoopState, hcall] at hloop
  obtain ⟨hstate, hfinished, hobj, hrest, hregistered, hready, hasked⟩ := hloop
  have hmem := hregistered obj mem_cons_self
  simp only [DrainManager.drainReturns, hcall, ite_error_eq_ok, ok.injEq] at hs
  obtain ⟨hstatus, rfl⟩ := hs
  have hnum := numDraining_setState hnodup hmem status
  rw [if_pos hobj] at hnum
  have hle : (s.setState obj status).numDraining ≤ s.allDrainable.length := numDraining_le _
  apply Asking.askNext
  refine ⟨hnodup, hfew, ?_, hstate, hfinished, (nodup_cons.mp hrest).2,
    fun o ho => hregistered o (.tail _ ho), fun o ho => ?_, hasked⟩
  · change (s.count + if status = .drained then 0 else 1) % countMod =
      (s.setState obj status).numDraining
    have heq : s.count + (if status = .drained then 0 else 1) =
        (s.setState obj status).numDraining := by
      cases status with
      | running => exact absurd rfl hstatus
      | draining =>
        simp only [if_pos, reduceCtorEq, if_false] at hnum ⊢
        omega
      | drained =>
        simp only [if_pos, reduceCtorEq, if_false] at hnum ⊢
        omega
    rw [heq]
    exact Nat.mod_eq_of_lt (by omega)
  · have hne : o ≠ obj := fun heq => (nodup_cons.mp hrest).1 (heq ▸ ho)
    simpa [setState, hne] using hready o ho

/-- No object is draining when the system runs, so what `resume` does is not seen by the counter. -/
theorem Counts.resumeNext (hrunning : s.state = .running)
    (hs : s.resumeNext rest = .ok s') : Counts s' := by
  have hnone : s.numDraining = 0 := h.quiet (by rw [hrunning]; decide)
  have hzero : s.count = 0 := by
    have := h.count
    omega
  cases rest with
  | nil =>
    obtain rfl := ok.inj hs
    exact ⟨h.nodup, h.few, hzero.trans hnone.symm, fun _ => hnone,
      fun hno => (by cases hrunning.symm.trans hno), h.finished⟩
  | cons obj rest =>
    simp only [DrainManager.resumeNext, ite_error_eq_ok, not_not, ok.injEq] at hs
    obtain ⟨hdrained, rfl⟩ := hs
    have hsame : (s.setState obj .running).numDraining = 0 := by
      rw [numDraining_setState_same (by rw [hdrained]; decide) (by decide), hnone]
    exact ⟨h.nodup, h.few, hzero.trans hsame.symm, fun _ => hsame, hrunning, h.finished⟩

theorem Counts.resume {order : List Nat} (hcall : s.call = .idle)
    (hs : s.resume order = .ok s') : Counts s' := by
  simp only [DrainManager.resume, ite_error_eq_ok, not_not] at hs
  obtain ⟨-, hzero, hs⟩ := hs
  have hnone : s.numDraining = 0 := (h.count_idle hcall).symm.trans hzero
  refine resumeNext (s := { s with state := .running }) ?_ rfl hs
  exact ⟨h.nodup, h.few, h.count, fun _ => hnone, by simp [LoopState, hcall], h.finished⟩

theorem Counts.preCheckpointRestore (hcall : s.call = .idle)
    (hs : s.preCheckpointRestore = .ok s') : Counts s' := by
  simp only [DrainManager.preCheckpointRestore, ite_error_eq_ok, not_not, ok.injEq] at hs
  obtain ⟨hrunning, rfl⟩ := hs
  have hnone : s.numDraining = 0 := h.quiet (by rw [hrunning]; decide)
  have hdrained : s.allDrainable.countP (fun o =>
      (if o ∈ s.allDrainable then .drained else s.drainState o) = .draining) = 0 :=
    countP_eq_zero.mpr (fun o ho => by simp [ho])
  refine ⟨h.nodup, h.few, ?_, fun _ => hdrained, by simp [LoopState, hcall], h.finished⟩
  simp only [uncounted, hcall, add_zero, h.count_idle hcall, hnone]
  exact hdrained.symm

theorem Counts.count_pos (hobj : obj ∈ s.allDrainable)
    (hdraining : s.drainState obj = .draining) (horderly : Orderly s (.signalDrainDone obj)) :
    0 < s.count := by
  have hcount := h.count
  have hpos := numDraining_pos hobj hdraining
  cases hcall : s.call with
  | draining cur rest => exact Nat.zero_lt_of_lt (horderly hdraining cur (by rw [hcall]; rfl)).2
  | _ =>
    simp only [uncounted, hcall] at hcount
    omega

/-- An object that is done is not counted any more. -/
theorem Counts.uncount (hobj : obj ∈ s.allDrainable)
    (hdraining : s.drainState obj = .draining) (horderly : Orderly s (.signalDrainDone obj)) :
    Counts { s.setState obj .drained with count := s.count - 1 } := by
  have hpos := h.count_pos hobj hdraining horderly
  have hnum := numDraining_setState h.nodup hobj .drained
  rw [if_pos hdraining, if_neg (by decide)] at hnum
  have hcount := h.count
  refine ⟨h.nodup, h.few, ?_, fun hstate => ?_, ?_, fun hno => ?_⟩
  · change s.count - 1 + s.uncounted = (s.setState obj .drained).numDraining
    omega
  · have := h.quiet hstate
    change (s.setState obj .drained).numDraining = 0
    omega
  · have hloop := h.loop
    cases hcall : s.call with
    | draining cur rest =>
      simp only [LoopState, hcall] at hloop
      obtain ⟨hstate, hfinished, hcur, hrest, hregistered, hready, hasked⟩ := hloop
      have hne := (horderly hdraining cur (by rw [hcall]; rfl)).1
      simp only [LoopState, setState, hcall]
      refine ⟨hstate, hfinished, ?_, hrest, hregistered, fun o ho => ?_, hasked⟩
      · rw [update_of_ne hne.symm, hcur]
      · by_cases heq : o = obj
        · rw [heq, update_self]
          decide
        · rw [update_of_ne heq]
          exact hready o ho
    | _ => simpa only [LoopState, setState, hcall] using hloop
  · change s.count - 1 = 0
    rw [h.finished hno]

theorem Counts.signal_eq (hobj : obj ∈ s.allDrainable)
    (hdraining : s.drainState obj = .draining) (horderly : Orderly s (.signalDrainDone obj)) :
    s.signalDrainDone obj = if s.count = 1 then
        { s.setState obj .drained with
          count := 0, exits := "Finished drain" :: s.exits, finished := true }
      else { s.setState obj .drained with count := s.count - 1 } := by
  have hpos := h.count_pos hobj hdraining horderly
  have hlt : s.count < countMod := by
    have := numDraining_le s
    have := h.few
    have := h.count
    omega
  have hcount : (s.count + (countMod - 1)) % countMod = s.count - 1 := by
    have heq : s.count + (countMod - 1) = s.count - 1 + countMod := by omega
    rw [heq, Nat.add_mod_right]
    exact Nat.mod_eq_of_lt (by omega)
  have hset : (s.setState obj .drained).count = s.count := rfl
  simp only [DrainManager.signalDrainDone, if_pos hdraining, hset, hcount]
  by_cases hone : s.count = 1
  · simp [hone, setState]
  · rw [if_neg (by omega), if_neg hone]

theorem Counts.signalDrainDone (hobj : obj ∈ s.allDrainable)
    (horderly : Orderly s (.signalDrainDone obj)) :
    Counts (s.signalDrainDone obj) := by
  by_cases hdraining : s.drainState obj = .draining
  · rw [h.signal_eq hobj hdraining horderly]
    have hnext := h.uncount hobj hdraining horderly
    split_ifs with hone
    · rw [hone] at hnext
      refine ⟨hnext.nodup, hnext.few, hnext.count, hnext.quiet, ?_, fun _ => rfl⟩
      -- while objects are asked, this one is not the last that has been counted
      cases hcall : s.call with
      | draining cur rest =>
        have := (horderly hdraining cur (by rw [hcall]; rfl)).2
        omega
      | _ => simpa [LoopState, setState, hcall] using hnext.loop
    · exact hnext
  · rw [DrainManager.signalDrainDone, if_neg hdraining]
    exact h

theorem Counts.construct (hobj : obj ∉ s.allDrainable)
    (horderly : Orderly s (.construct obj visited)) : Counts (s.construct obj visited) := by
  obtain ⟨hstate, hfew⟩ := horderly
  have hnone := h.quiet hstate
  have hadded : (obj :: s.allDrainable).countP
      (fun o => update s.drainState obj s.state o = .draining) = 0 := by
    refine countP_eq_zero.mpr (fun o ho => ?_)
    rcases mem_cons.mp ho with rfl | ho
    · simp [hstate]
    · have hne : o ≠ obj := fun heq => hobj (heq ▸ ho)
      simpa [hne] using not_draining hnone ho
  have hcount := h.count
  have hloop := h.loop
  have hnodup := nodup_cons.mpr ⟨hobj, h.nodup⟩
  cases hcall : s.call with
  | idle =>
    simp only [uncounted, hcall] at hcount
    simp only [DrainManager.construct, setState, hcall]
    exact ⟨hnodup, hfew, (by simp [uncounted, numDraining, hadded]; omega), fun _ => hadded,
      fun hno => absurd hno hstate, h.finished⟩
  | draining cur rest =>
    simp only [LoopState, hcall] at hloop
    exact absurd hloop.1 hstate
  | resuming cur rest =>
    simp only [uncounted, hcall] at hcount
    simp only [LoopState, hcall] at hloop
    simp only [DrainManager.construct, setState, hcall]
    exact ⟨hnodup, hfew, (by simp [uncounted, numDraining, hadded]; omega), fun _ => hadded, hloop,
      h.finished⟩

end

theorem numDraining_erase (hobj : s.drainState obj ≠ .draining) (c : DrainCall) :
    ({ s with allDrainable := s.allDrainable.erase obj, call := c } : DrainManager).numDraining =
      s.numDraining := by
  by_cases hmem : obj ∈ s.allDrainable
  · have hperm := (perm_cons_erase hmem).countP_eq (fun o => decide (s.drainState o = .draining))
    rw [countP_cons, if_neg (by simpa using hobj)] at hperm
    exact hperm.symm
  · simp [numDraining, erase_of_not_mem hmem]

theorem Counts.destroy (h : Counts s) (horderly : Orderly s (.destroy obj))
    (hs : s.destroy obj = .ok s') : Counts s' := by
  have hnum := numDraining_erase horderly
  have hcount := h.count
  have hloop := h.loop
  have hfew : (s.allDrainable.erase obj).length < countMod :=
    length_erase_le.trans_lt h.few
  have hstay : ∀ o ∈ s.allDrainable.erase obj, o ∈ s.allDrainable := fun o => mem_of_mem_erase
  cases hcall : s.call with
  | idle =>
    simp only [uncounted, hcall] at hcount
    simp only [LoopState, hcall] at hloop
    simp only [DrainManager.destroy, hcall] at hs
    obtain rfl := ok.inj hs
    have hnum := hcall ▸ hnum s.call
    exact ⟨h.nodup.erase obj, hfew, hcount.trans hnum.symm, fun hno => hnum.trans (h.quiet hno),
      fun hstate o ho => hloop hstate o (hstay o ho), h.finished⟩
  | resuming cur rest =>
    simp only [uncounted, hcall] at hcount
    simp only [LoopState, hcall] at hloop
    simp only [DrainManager.destroy, hcall, ite_error_eq_ok, ok.injEq] at hs
    obtain ⟨-, rfl⟩ := hs
    exact ⟨h.nodup.erase obj, hfew, hcount.trans (hnum _).symm,
      fun hno => (hnum _).trans (h.quiet hno), hloop, h.finished⟩
  | draining cur rest =>
    simp only [uncounted, hcall] at hcount
    simp only [LoopState, hcall] at hloop
    obtain ⟨hstate, hfinished, hcur, hrest, hregistered, hready, hasked⟩ := hloop
    simp only [DrainManager.destroy, hcall, ite_error_eq_ok, ok.injEq] at hs
    obtain ⟨hne, rfl⟩ := hs
    have hnext : ∀ o ∈ rest, o ≠ obj → o ∈ rest.erase obj := fun o ho hno =>
      (mem_erase_of_ne hno).mpr ho
    refine ⟨h.nodup.erase obj, hfew, hcount.trans (hnum _).symm,
      fun hno => (hnum _).trans (h.quiet hno), ⟨hstate, hfinished, hcur, ?_, fun o ho => ?_,
        fun o ho => hready o (mem_of_mem_erase ho), fun o ho => ?_⟩, h.finished⟩
    · refine nodup_cons.mpr ⟨fun hno => ?_, (nodup_cons.mp hrest).2.erase obj⟩
      exact (nodup_cons.mp hrest).1 (mem_of_mem_erase hno)
    · rcases mem_cons.mp ho with rfl | ho
      · exact (mem_erase_of_ne hne).mpr (hregistered o mem_cons_self)
      · have hno := ((nodup_cons.mp hrest).2.mem_erase_iff.mp ho).1
        exact (mem_erase_of_ne hno).mpr
          (hregistered o (.tail _ (mem_of_mem_erase ho)))
    · have hno := (h.nodup.mem_erase_iff.mp ho).1
      exact (hasked o (hstay o ho)).imp_right (fun hrest => hnext o hrest hno)

theorem Counts.step (h : Counts s) (hstep : machine.step s m s') (horderly : Orderly s m) :
    Counts s' := by
  obtain ⟨henabled, hs⟩ := hstep
  cases m with
  | construct obj visited => exact ok.inj hs ▸ h.construct henabled horderly
  | destroy obj => exact h.destroy horderly hs
  | tryDrain order => exact h.tryDrain henabled.1 henabled.2 hs
  | drainReturns status =>
    cases hcall : s.call with
    | draining obj rest => exact h.drainReturns hcall hs
    | idle => simp [Enabled, hcall, DrainCall.inDrain] at henabled
    | resuming obj rest => simp [Enabled, hcall, DrainCall.inDrain] at henabled
  | resume order => exact h.resume henabled.1 hs
  | drainResumeReturns =>
    have hloop := h.loop
    cases hcall : s.call with
    | resuming obj rest =>
      simp only [LoopState, hcall] at hloop
      simp only [apply, DrainManager.drainResumeReturns, hcall] at hs
      exact h.resumeNext hloop hs
    | idle => simp [Enabled, hcall, DrainCall.inDrainResume] at henabled
    | draining obj rest => simp [Enabled, hcall, DrainCall.inDrainResume] at henabled
  | preCheckpointRestore => exact h.preCheckpointRestore henabled hs
  | signalDrainDone obj => exact ok.inj hs ▸ h.signalDrainDone henabled horderly

theorem counts_of_reachable (h : (machine.restrict Orderly).Reachable s) : Counts s :=
  h.invariant (fun s hs => by
    rw [show s = {} from hs]
    exact ⟨nodup_nil, by decide, rfl, fun _ => rfl, nofun, fun _ => rfl⟩)
    (fun _ _ _ hs hstep => hs.step hstep.1 hstep.2)

/-! Who requests an exit event. -/

@[simp] theorem askNext_exits (rest : List Nat) : (s.askNext rest).exits = s.exits := by
  cases rest <;> rfl

theorem resumeNext_exits (hs : s.resumeNext rest = .ok s') : s'.exits = s.exits := by
  cases rest with
  | nil => exact ok.inj hs ▸ rfl
  | cons obj rest =>
    simp only [resumeNext, ite_error_eq_ok, ok.injEq] at hs
    exact hs.2 ▸ rfl

/-- Only an object that is done makes the manager request an exit. -/
theorem exits_eq_or_signal (hs : s.apply m = .ok s') :
    s'.exits = s.exits ∨ ∃ obj, m = .signalDrainDone obj := by
  cases m with
  | signalDrainDone obj => exact .inr ⟨obj, rfl⟩
  | construct obj visited =>
    rw [← ok.inj hs]
    unfold construct
    dsimp only
    split <;> exact .inl rfl
  | destroy obj =>
    simp only [apply, destroy] at hs
    split at hs <;> simp only [ite_error_eq_ok, ok.injEq] at hs
    · exact .inl (hs.2 ▸ rfl)
    · exact .inl (hs.2 ▸ rfl)
    · exact .inl (hs ▸ rfl)
  | tryDrain order =>
    simp only [apply, tryDrain, ite_error_eq_ok, ok.injEq] at hs
    exact .inl (hs.2.2 ▸ askNext_exits order)
  | drainReturns status =>
    simp only [apply, drainReturns] at hs
    split at hs <;> simp only [ite_error_eq_ok, ok.injEq] at hs
    · exact .inl (hs.2 ▸ askNext_exits _)
    · exact .inl (hs ▸ rfl)
  | resume order =>
    simp only [apply, resume, ite_error_eq_ok] at hs
    exact .inl ((resumeNext_exits hs.2.2).trans rfl)
  | drainResumeReturns =>
    simp only [apply, drainResumeReturns] at hs
    split at hs
    · exact .inl (resumeNext_exits hs)
    · exact .inl (ok.inj hs ▸ rfl)
  | preCheckpointRestore =>
    simp only [apply, preCheckpointRestore, ite_error_eq_ok, ok.injEq] at hs
    exact .inl (hs.2 ▸ rfl)

section

variable (h : Counts s) (hobj : obj ∈ s.allDrainable) (horderly : Orderly s (.signalDrainDone obj))
include h hobj horderly

theorem Counts.signal_count_le : (s.signalDrainDone obj).count ≤ s.count := by
  by_cases hdraining : s.drainState obj = .draining
  · rw [h.signal_eq hobj hdraining horderly]
    split
    · exact Nat.zero_le _
    · exact Nat.sub_le _ _
  · rw [DrainManager.signalDrainDone, if_neg hdraining]

theorem Counts.exit_complete (hexit : (s.signalDrainDone obj).exits ≠ s.exits)
    (ho : o ∈ (s.signalDrainDone obj).allDrainable) :
    o ∈ (s.signalDrainDone obj).asked ∧ (s.signalDrainDone obj).drainState o ≠ .draining := by
  by_cases hdraining : s.drainState obj = .draining
  · have hnext := h.signalDrainDone hobj horderly
    have hcount := hnext.count
    have hloop := h.loop
    have hstate : s.state = .draining := by
      by_contra hno
      exact not_draining (h.quiet hno) hobj hdraining
    rw [h.signal_eq hobj hdraining horderly] at hexit ho hcount ⊢
    split_ifs at hexit with hone
    · rw [if_pos hone] at ho hcount ⊢
      cases hcall : s.call with
      | idle =>
        simp only [LoopState, hcall] at hloop
        simp only [uncounted, setState, hcall] at hcount
        exact ⟨hloop hstate o ho, not_draining hcount.symm ho⟩
      | draining cur rest =>
        have := (horderly hdraining cur (by rw [hcall]; rfl)).2
        omega
      | resuming cur rest =>
        simp only [LoopState, hcall] at hloop
        exact absurd (hloop.symm.trans hstate) (by decide)
    · exact absurd rfl hexit
  · rw [DrainManager.signalDrainDone, if_neg hdraining] at hexit
    exact absurd rfl hexit

end

/-- Between calls the counter is the number of objects that are draining. It does not wrap, an
exit is requested when every object has been asked and is done, and the next drain cycle can
begin then. -/
theorem drain_counting_exact (h : (machine.restrict Orderly).Reachable s) :
    (s.call = .idle → s.count = s.numDraining) ∧
    (∀ m s', (machine.restrict Orderly).step s m s' →
      (∀ obj, m = .signalDrainDone obj → s'.count ≤ s.count) ∧
      (s'.exits ≠ s.exits → ∀ obj ∈ s'.allDrainable,
        obj ∈ s'.asked ∧ s'.drainState obj ≠ .draining)) ∧
    (s.finished = true → ∀ order, s.tryDrain order ≠
      .error (.panic "Drain counter must be zero at the start of a drain cycle\n")) := by
  have hcounts := counts_of_reachable h
  refine ⟨fun hcall => ?_, fun m s' hstep => ?_, fun hfinished order hno => ?_⟩
  · exact hcounts.count_idle hcall
  · obtain ⟨⟨henabled, hs⟩, horderly⟩ := hstep
    constructor
    · rintro obj rfl
      rw [← ok.inj hs]
      exact hcounts.signal_count_le henabled horderly
    · intro hexit obj hobj
      obtain ⟨done, rfl⟩ := (exits_eq_or_signal hs).resolve_left hexit
      obtain rfl := ok.inj hs
      exact hcounts.exit_complete henabled horderly hexit hobj
  · simp only [tryDrain, hcounts.finished hfinished] at hno
    split at hno
    · simp at hno
    · simp at hno

def move (s : DrainManager) (m : Move) : Option DrainManager :=
  if Enabled s m then (s.apply m).toOption else none

theorem step_of_move (s : DrainManager) (m : Move) (s' : DrainManager) (h : s.move m = some s') :
    machine.step s m s' := by
  obtain ⟨henabled, h⟩ := Option.ite_none_right_eq_some.mp h
  exact ⟨henabled, toOption_eq_some.mp h⟩

/-- Two objects are draining, and one of them is done. -/
theorem drain_counting_exact_two : ∃ s, (machine.restrict Orderly).Reachable s ∧ s.count = 1 ∧
    s.numDraining = 1 := by
  obtain ⟨s, hs, hcall, hcount⟩ := exists_run (restrict_step step_of_move Orderly)
    (.start rfl) [.construct 0 false, .construct 1 false, .tryDrain [1, 0], .drainReturns .draining,
      .drainReturns .draining, .signalDrainDone 0] (P := fun s => s.call = .idle ∧ s.count = 1)
    (by decide)
  exact ⟨s, hs, hcount, ((drain_counting_exact hs).1 hcall).symm.trans hcount⟩

/-- Object 0 is done while object 1 is asked: the exit is requested before object 1 has answered,
and after it the counter is not zero. Or object 2 is made while 0 and 1 are draining: it is not
counted, but its signal is. -/
theorem signal_not_counted :
    (∃ s, machine.Reachable s ∧ s.call = .idle ∧ s.finished = true ∧ s.tryDrain [0, 1] =
      .error (.panic "Drain counter must be zero at the start of a drain cycle\n")) ∧
    (∃ s, machine.Reachable s ∧ s.call = .idle ∧ s.finished = true ∧ s.numDraining = 1) ∧
    (∃ s, machine.Reachable s ∧ s.call = .idle ∧ s.numDraining = 0 ∧ s.count = 2 ^ 32 - 1) := by
  refine ⟨?_, ?_, ?_⟩
  · obtain ⟨s, hs, hcall, hfinished, hstate, hcount⟩ := exists_run step_of_move
      (.start rfl) [.construct 0 false, .construct 1 false, .tryDrain [0, 1],
        .drainReturns .draining, .signalDrainDone 0, .drainReturns .draining]
      (P := fun s => s.call = .idle ∧ s.finished = true ∧ s.state = .draining ∧ s.count = 1)
      (by decide)
    exact ⟨s, hs, hcall, hfinished, by simp [tryDrain, hstate, hcount]⟩
  · exact exists_run step_of_move (.start rfl) [.construct 0 false, .construct 1 false,
        .tryDrain [0, 1], .drainReturns .draining, .drainReturns .draining, .construct 2 false,
        .signalDrainDone 2, .signalDrainDone 0] (by decide)
  · exact exists_run step_of_move (.start rfl) [.construct 0 false, .construct 1 false,
        .tryDrain [0, 1], .drainReturns .draining, .drainReturns .draining, .construct 2 false,
        .signalDrainDone 2, .signalDrainDone 0, .signalDrainDone 1] (by decide)

end DrainManager

end Gem5.Sim
