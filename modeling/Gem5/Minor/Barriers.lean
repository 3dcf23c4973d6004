import Gem5.Lib.Transition

namespace Gem5.Minor

open Lib

/-! Memory barriers in the Minor pipeline: the LSQ remembers the newest barrier of each thread, and
Execute holds memory references back that are younger. -/

/-- An instruction in flight. A fault is an instruction that is neither a memory reference nor a
barrier. -/
structure MinorInst where
  execSeqNum : Nat
  streamSeqNum : Nat
  isMemRef : Bool
  isMemBarrier : Bool
  canEarlyIssue : Bool := false
  instToWaitFor : Nat := 0
  inLSQ : Bool := false
  inStoreBuffer : Bool := false

/-- What Execute and the LSQ have for a thread. In addition there are the newest instruction that
has been issued, and the barriers that have been issued and were neither discarded nor cleared. -/
structure MinorThread where
  inFlightInsts : List MinorInst := []
  inFUMemInsts : List Nat := []
  streamSeqNum : Nat := 1
  lastMemBarrier : Nat := 0
  issued : Nat := 0
  barriers : Finset Nat := ∅

/-- An entry of the store buffer: a store, or a barrier, or both. -/
structure StoreSlot where
  tid : Nat
  execSeqNum : Nat
  isBarrier : Bool
  isComplete : Bool

/-- A store has been done. It stays where it is if it is a barrier too. -/
def StoreSlot.done (tid execSeqNum : Nat) (s : StoreSlot) : Option StoreSlot :=
  if s.tid = tid ∧ s.execSeqNum = execSeqNum then
    if s.isBarrier then some { s with isComplete := true } else none
  else some s

structure MinorExecute where
  threads : Nat → MinorThread := fun _ => {}
  slots : List StoreSlot := []

namespace MinorThread

def clearMemBarrier (execSeqNum : Nat) (t : MinorThread) : MinorThread :=
  { t with
    lastMemBarrier := if t.lastMemBarrier ≤ execSeqNum then 0 else t.lastMemBarrier
    barriers := t.barriers.erase execSeqNum }

/-- `none` is a failed assertion. -/
def issuedMemBarrierInst (execSeqNum : Nat) (t : MinorThread) : Option MinorThread :=
  if t.lastMemBarrier < execSeqNum then
    some { t with lastMemBarrier := execSeqNum, barriers := insert execSeqNum t.barriers }
  else none

/-- An instruction goes to a functional unit. A memory reference that may be issued early waits for
an instruction that it depends on, or for the newest barrier. -/
def issue (allowEarlyMemIssue : Bool) (execSeqNum : Nat) (isMemRef isMemBarrier : Bool)
    (dependsOn : Nat) (t : MinorThread) : Option MinorThread :=
  let early := allowEarlyMemIssue && isMemRef
  let inst : MinorInst := {
    execSeqNum
    streamSeqNum := t.streamSeqNum
    isMemRef
    isMemBarrier
    canEarlyIssue := early
    instToWaitFor := if early then max dependsOn t.lastMemBarrier else 0 }
  let t := { t with
    inFlightInsts := t.inFlightInsts ++ [inst]
    inFUMemInsts := if isMemRef then t.inFUMemInsts ++ [execSeqNum] else t.inFUMemInsts
    issued := execSeqNum }
  if isMemBarrier then t.issuedMemBarrierInst execSeqNum else some t

def popFUMem (execSeqNum : Nat) (t : MinorThread) : MinorThread :=
  if t.inFUMemInsts.head? = some execSeqNum then
    { t with inFUMemInsts := t.inFUMemInsts.tail } else t

def popHead (inst : MinorInst) (t : MinorThread) : MinorThread :=
  let t := if inst.isMemRef then t.popFUMem inst.execSeqNum else t
  { t with inFlightInsts := t.inFlightInsts.tail }

def modifyInst (execSeqNum : Nat) (f : MinorInst → MinorInst) (t : MinorThread) : MinorThread :=
  { t with
    inFlightInsts := t.inFlightInsts.map (fun i => if i.execSeqNum = execSeqNum then f i else i) }

/-- A memory reference is held back by a barrier. -/
def heldBack (execSeqNum : Nat) (t : MinorThread) : Bool :=
  t.lastMemBarrier < execSeqNum && t.lastMemBarrier != 0

end MinorThread

namespace MinorExecute

def modifyThread (tid : Nat) (f : MinorThread → MinorThread) (w : MinorExecute) : MinorExecute :=
  { w with threads := Function.update w.threads tid (f (w.threads tid)) }

def pushSlot (s : StoreSlot) (w : MinorExecute) : MinorExecute := { w with slots := w.slots ++ [s] }

def completeMemBarrierInst (tid : Nat) (inst : MinorInst) (committed : Bool) (w : MinorExecute) :
    MinorExecute :=
  if committed then
    if inst.inStoreBuffer then w else w.pushSlot ⟨tid, inst.execSeqNum, true, true⟩
  else w.modifyThread tid (.clearMemBarrier inst.execSeqNum)

def finish (tid : Nat) (inst : MinorInst) (committed : Bool) (w : MinorExecute) : MinorExecute :=
  let w := w.modifyThread tid (.popHead inst)
  if inst.isMemBarrier then w.completeMemBarrierInst tid inst committed else w

/-- What `commitInst` does with a memory reference. -/
inductive MemOutcome
  | notCompleted | fault | issued
deriving DecidableEq

/-- What the loops of Execute and of the store buffer can do. A memory reference that is issued
early is at the end of a functional unit; the units are shared by the threads. -/
inductive Move
  | issue (tid execSeqNum : Nat) (isMemRef isMemBarrier : Bool) (dependsOn : Nat)
  | branch (tid streamSeqNum : Nat)
  | discard (tid : Nat)
  | response (tid : Nat) (toStoreBuffer : Bool)
  | commit (tid : Nat)
  | commitMemRef (tid : Nat) (outcome : MemOutcome)
  | commitEarly (tid owner execSeqNum : Nat) (outcome : MemOutcome)
  | storeDone (tid execSeqNum : Nat)
  | clearBarrier

def commitMemRef (tid : Nat) (inst : MinorInst) (w : MinorExecute) : MemOutcome → MinorExecute
  | .notCompleted => w
  | .fault => w.finish tid inst false
  | .issued => w.modifyThread tid (fun t =>
      (t.modifyInst inst.execSeqNum (fun i => { i with inLSQ := true })).popFUMem inst.execSeqNum)

/-- `commitInst` on a memory reference that need not be at the head, nor even be one of the
thread. -/
def commitEarly (tid owner execSeqNum : Nat) (w : MinorExecute) : MemOutcome → MinorExecute
  | .notCompleted => w
  | .fault => w.modifyThread owner (fun t =>
      t.modifyInst execSeqNum (fun i => { i with canEarlyIssue := false }))
  | .issued =>
    let w := w.modifyThread owner (fun t =>
      t.modifyInst execSeqNum (fun i => { i with inLSQ := true }))
    if tid = owner then w.modifyThread tid (.popFUMem execSeqNum) else w

def storeDone (tid execSeqNum : Nat) (w : MinorExecute) : MinorExecute :=
  { w with slots := w.slots.filterMap (StoreSlot.done tid execSeqNum) }

/-- `StoreBuffer::step` clears a barrier that is at the front and is complete. -/
def clearBarrier (w : MinorExecute) : Option MinorExecute :=
  match w.slots with
  | s :: slots =>
    if s.isComplete && s.isBarrier then
      some ({ w with slots }.modifyThread s.tid (.clearMemBarrier s.execSeqNum))
    else none
  | [] => none

def move (allowEarlyMemIssue : Bool) (w : MinorExecute) : Move → Option MinorExecute
  | .issue tid execSeqNum isMemRef isMemBarrier dependsOn =>
    if (w.threads tid).issued < execSeqNum then
      ((w.threads tid).issue allowEarlyMemIssue execSeqNum isMemRef isMemBarrier dependsOn).map
        (fun t => w.modifyThread tid (fun _ => t))
    else none
  | .branch tid streamSeqNum => some (w.modifyThread tid (fun t => { t with streamSeqNum }))
  | .discard tid =>
    match (w.threads tid).inFlightInsts with
    | inst :: _ =>
      if inst.streamSeqNum ≠ (w.threads tid).streamSeqNum then some (w.finish tid inst false)
        else none
    | [] => none
  | .response tid toStoreBuffer =>
    match (w.threads tid).inFlightInsts with
    | inst :: _ =>
      if inst.inLSQ && inst.streamSeqNum == (w.threads tid).streamSeqNum then
        if toStoreBuffer then
          some ((w.pushSlot ⟨tid, inst.execSeqNum, inst.isMemBarrier, false⟩).finish tid
            { inst with inStoreBuffer := true } true)
        else some (w.finish tid inst true)
      else none
    | [] => none
  | .commit tid =>
    match (w.threads tid).inFlightInsts with
    | inst :: _ =>
      if !inst.isMemRef && inst.streamSeqNum == (w.threads tid).streamSeqNum then
        some (w.finish tid inst true)
      else none
    | [] => none
  | .commitMemRef tid outcome =>
    match (w.threads tid).inFlightInsts with
    | inst :: _ =>
      if inst.isMemRef && !inst.inLSQ && inst.streamSeqNum == (w.threads tid).streamSeqNum &&
          !(w.threads tid).heldBack inst.execSeqNum then
        some (w.commitMemRef tid inst outcome)
      else none
    | [] => none
  | .commitEarly tid owner execSeqNum outcome =>
    match (w.threads tid).inFlightInsts,
      (w.threads owner).inFlightInsts.find? (fun i => i.execSeqNum = execSeqNum) with
    | head :: _, some inst =>
      if (w.threads tid).inFUMemInsts ≠ [] ∧ inst.isMemRef ∧ !inst.inLSQ ∧ inst.canEarlyIssue ∧
          inst.streamSeqNum = (w.threads tid).streamSeqNum ∧ inst.instToWaitFor < head.execSeqNum ∧
          !(w.threads tid).heldBack execSeqNum then
        some (w.commitEarly tid owner execSeqNum outcome)
      else none
    | _, _ => none
  | .storeDone tid execSeqNum => some (w.storeDone tid execSeqNum)
  | .clearBarrier => w.clearBarrier

def machine (allowEarlyMemIssue : Bool) : Machine MinorExecute Move where
  init w := w = {}
  step w m w' := w.move allowEarlyMemIssue m = some w'

/-- The memory reference, with its thread, for which a step calls `commitInst`. -/
def commits (w : MinorExecute) : Move → Option (Nat × Nat)
  | .commitMemRef tid _ => (w.threads tid).inFlightInsts.head?.map (fun i => (tid, i.execSeqNum))
  | .commitEarly _ owner execSeqNum _ => some (owner, execSeqNum)
  | _ => none

/-- The steps that one number for a thread is enough for: a barrier is issued when no memory
reference is waiting for an older one, or would be; the newest barrier is discarded when it is the
only one; and a memory reference is issued early for its own thread. -/
def Orderly (w : MinorExecute) : Move → Prop
  | .issue tid execSeqNum isMemRef true _ => ∀ b ∈ (w.threads tid).barriers,
      (isMemRef = true → ¬b < execSeqNum) ∧
      ∀ i ∈ (w.threads tid).inFlightInsts, i.isMemRef = true → i.inLSQ = false → ¬b < i.execSeqNum
  | .discard tid | .commitMemRef tid .fault => ∀ i ∈ (w.threads tid).inFlightInsts.head?,
      i.isMemBarrier = true → i.execSeqNum = (w.threads tid).lastMemBarrier →
        (w.threads tid).barriers = {i.execSeqNum}
  | .commitEarly tid owner _ _ => owner = tid
  | _ => True

end MinorExecute

end Gem5.Minor
