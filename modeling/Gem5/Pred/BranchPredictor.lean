import Gem5.Lib.Ring
import Gem5.Lib.Transition

namespace Gem5.Pred

open Lib

/-! The branch prediction unit of one thread: the records of the branches in flight, the return
address stack, and what the direction predictor is trained with. -/

/-- The stack has its `numEntries` cells in a ring. -/
structure ReturnAddrStack (PC : Type) where
  addrStack : Nat → PC
  usedEntries : Nat
  tos : Nat

namespace ReturnAddrStack

variable {PC : Type} (numEntries : Nat)

def initial (zero : PC) : ReturnAddrStack PC where
  addrStack := fun _ => zero
  usedEntries := 0
  tos := 0

def top (s : ReturnAddrStack PC) : PC := s.addrStack s.tos

def topIdx (s : ReturnAddrStack PC) : Nat := s.tos

def empty (s : ReturnAddrStack PC) : Bool := s.usedEntries == 0

def push (returnAddr : PC) (s : ReturnAddrStack PC) : ReturnAddrStack PC :=
  let tos := Ring.next numEntries s.tos
  { addrStack := Function.update s.addrStack tos returnAddr
    usedEntries := if s.usedEntries ≠ numEntries then s.usedEntries + 1 else s.usedEntries
    tos }

def pop (s : ReturnAddrStack PC) : ReturnAddrStack PC :=
  { s with
    usedEntries := if 0 < s.usedEntries then s.usedEntries - 1 else s.usedEntries
    tos := Ring.prev numEntries s.tos }

/-- The number of used entries is not restored. -/
def restore (topEntryIdx : Nat) (restored : PC) (s : ReturnAddrStack PC) : ReturnAddrStack PC :=
  { s with
    addrStack := Function.update s.addrStack topEntryIdx restored
    tos := topEntryIdx }

end ReturnAddrStack

structure BPredConfig (PC : Type) where
  numEntries : Nat
  numEntries_pos : 0 < numEntries
  useIndirect : Bool
  buildRetPC : PC → PC → PC
  zero : PC

structure BranchInst where
  isUncondCtrl : Bool := false
  isReturn : Bool := false
  isCall : Bool := false
  isDirectCtrl : Bool := true
  deriving DecidableEq, Repr

/-- What the tables answer for a branch: the direction predictor, the branch target buffer and the
indirect predictor; and the address that follows the branch. -/
structure TableAnswers (PC : Type) where
  direction : Bool
  btb : Option PC
  indirect : Option PC
  next : PC

structure PredictorHistory (PC : Type) where
  seqNum : Nat
  pc : PC
  predTaken : Bool
  rasTarget : PC
  rasIndex : Nat := 0
  usedRAS : Bool := false
  pushedRAS : Bool := false
  wasCall : Bool := false
  wasReturn : Bool := false
  wasSquashed : Bool := false
  wasIndirect : Bool := false

/-- The youngest record is at the front of `predHist`. `trained` has the calls of the direction
predictor's `update`: the branch and the direction. -/
structure BPredUnit (PC : Type) where
  predHist : List (PredictorHistory PC)
  ras : ReturnAddrStack PC
  trained : List (Nat × Bool)

namespace BPredUnit

variable {PC : Type} (cfg : BPredConfig PC)

def initial : BPredUnit PC where
  predHist := []
  ras := ReturnAddrStack.initial cfg.zero
  trained := []

/-- A branch whose target is found in the tables. Without a target it is predicted not taken, and a
conditional call takes its return address back. -/
def predictTarget (inst : BranchInst) (tables : TableAnswers PC) (r : PredictorHistory PC)
    (ras : ReturnAddrStack PC) :
    Bool × PC × PredictorHistory PC × ReturnAddrStack PC :=
  let direct := inst.isDirectCtrl || !cfg.useIndirect
  let r := { r with wasIndirect := !direct }
  match if direct then tables.btb else tables.indirect with
  | some target => (true, target, r, ras)
  | none =>
    if inst.isCall && !inst.isUncondCtrl then
      (false, tables.next, { r with pushedRAS := false }, ras.pop cfg.numEntries)
    else (false, tables.next, r, ras)

/-- The record of a branch, with the direction, the next address and the stack. -/
def predictRecord (inst : BranchInst) (seqNum : Nat) (pc : PC) (tables : TableAnswers PC)
    (ras : ReturnAddrStack PC) : Bool × PC × PredictorHistory PC × ReturnAddrStack PC :=
  let predTaken := inst.isUncondCtrl || tables.direction
  let r : PredictorHistory PC := { seqNum, pc, predTaken, rasTarget := cfg.zero }
  if predTaken then
    if inst.isReturn then
      let rasTop := ras.top
      (true, cfg.buildRetPC pc rasTop,
        { r with
          wasReturn := true
          usedRAS := true
          rasIndex := ras.topIdx
          rasTarget := rasTop },
        ras.pop cfg.numEntries)
    else if inst.isCall then
      predictTarget cfg inst tables { r with pushedRAS := true, wasCall := true }
        (ras.push cfg.numEntries pc)
    else predictTarget cfg inst tables r ras
  else (false, tables.next, { r with wasReturn := inst.isReturn }, ras)

/-- The direction and the address that `predict` returns, and the unit afterwards. -/
def predict (inst : BranchInst) (seqNum : Nat) (pc : PC) (tables : TableAnswers PC)
    (u : BPredUnit PC) : Bool × PC × BPredUnit PC :=
  let (taken, target, r, ras) := predictRecord cfg inst seqNum pc tables u.ras
  (taken, target, { u with predHist := r :: u.predHist, ras })

def update (doneSn : Nat) (u : BPredUnit PC) : BPredUnit PC :=
  let done := u.predHist.reverse.takeWhile (fun r => r.seqNum ≤ doneSn)
  { u with
    predHist := (u.predHist.reverse.dropWhile (fun r => r.seqNum ≤ doneSn)).reverse
    trained := u.trained ++
      (done.filter (fun r => !r.wasSquashed)).map (fun r => (r.seqNum, r.predTaken)) }

/-- The stack without the effect of the youngest branch. -/
def undo (r : PredictorHistory PC) (ras : ReturnAddrStack PC) : ReturnAddrStack PC :=
  if r.usedRAS then ras.restore r.rasIndex r.rasTarget
  else if r.wasCall && r.pushedRAS then ras.pop cfg.numEntries
  else ras

def squashYounger (squashedSn : Nat) :
    List (PredictorHistory PC) → ReturnAddrStack PC →
      List (PredictorHistory PC) × ReturnAddrStack PC
  | [], ras => ([], ras)
  | r :: rs, ras =>
    if squashedSn < r.seqNum then squashYounger squashedSn rs (undo cfg r ras) else (r :: rs, ras)

def squash (squashedSn : Nat) (u : BPredUnit PC) : BPredUnit PC :=
  let (predHist, ras) := squashYounger cfg squashedSn u.predHist u.ras
  { u with predHist, ras }

/-- The record of a branch that was mispredicted, and the stack. -/
def correctRecord (actuallyTaken : Bool) (r : PredictorHistory PC) (ras : ReturnAddrStack PC) :
    PredictorHistory PC × ReturnAddrStack PC :=
  let r := { r with wasSquashed := true }
  if actuallyTaken then
    if r.wasReturn && !r.usedRAS then ({ r with usedRAS := true }, ras.pop cfg.numEntries)
    else (r, ras)
  else if r.usedRAS then ({ r with usedRAS := false }, ras.restore r.rasIndex r.rasTarget)
  else if r.wasCall && r.pushedRAS then ({ r with pushedRAS := false }, ras.pop cfg.numEntries)
  else (r, ras)

/-- `squash` of a branch that was mispredicted: `none` is the failed assertion that its record is at
the front. -/
def correct (squashedSn : Nat) (actuallyTaken : Bool) (u : BPredUnit PC) : Option (BPredUnit PC) :=
  let u := squash cfg squashedSn u
  match u.predHist with
  | [] => some u
  | r :: rs =>
    if r.seqNum ≠ squashedSn then none
    else
      let (r, ras) := correctRecord cfg actuallyTaken r u.ras
      some
        { predHist := r :: rs
          ras
          trained := u.trained ++ [(squashedSn, actuallyTaken)] }

end BPredUnit

end Gem5.Pred
