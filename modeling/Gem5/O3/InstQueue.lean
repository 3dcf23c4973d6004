import Gem5.Lib.Transition

namespace Gem5.O3

/-! The instruction queue: for every physical register the chain of the instructions that wait for
its value. Instructions are named by their sequence numbers. -/

structure IqInst where
  threadNumber : Nat := 0
  srcRegs : List Nat := []
  destRegs : List Nat := []
  isMemRef : Bool := false
  isLoad : Bool := false
  isStore : Bool := false
  isStoreConditional : Bool := false
  isNonSpeculative : Bool := false
  isMemBarrier : Bool := false
  isWriteBarrier : Bool := false

namespace IqInst

def isAcqRel (inst : IqInst) : Bool :=
  inst.isMemBarrier && (inst.isLoad || (inst.isStore && !inst.isStoreConditional))

/-- The instructions that `doSquash` takes out of the chains. -/
def inChains (inst : IqInst) : Bool :=
  inst.isAcqRel || (!inst.isNonSpeculative && !inst.isStoreConditional && !inst.isMemBarrier &&
    !inst.isWriteBarrier)

end IqInst

/-- What changes while an instruction is in flight. -/
structure IqEntry extends IqInst where
  readyRegs : Nat := 0
  readySrcRegIdx : Nat → Bool := fun _ => false
  canIssue : Bool := false
  issued : Bool := false
  memOpDone : Bool := false
  squashedInIQ : Bool := false

namespace IqEntry

def markSrcRegReady (e : IqEntry) : IqEntry :=
  { e with
    readyRegs := e.readyRegs + 1
    canIssue := if e.readyRegs + 1 = e.srcRegs.length then true else e.canIssue }

def markSrcRegIdxReady (e : IqEntry) (srcIdx : Nat) : IqEntry :=
  markSrcRegReady { e with readySrcRegIdx := Function.update e.readySrcRegIdx srcIdx true }

/-- An instruction after decode and rename, where `ready` is what rename knows of its sources. -/
def renamed (inst : IqInst) (ready : Nat → Bool) : IqEntry :=
  inst.srcRegs.zipIdx.foldl (fun e src => if ready src.2 then e.markSrcRegIdxReady src.2 else e)
    { inst with canIssue := inst.srcRegs.isEmpty }

end IqEntry

/-- The chains have the instruction that was inserted last in front, and `producer` is their head
node. `readyInsts` has those whose registers are ready: they are on a ready list, or the memory
dependence unit has been told. -/
structure InstQueue where
  insts : Nat → IqEntry
  instList : Nat → List Nat
  dependGraph : Nat → List Nat
  producer : Nat → Option Nat
  regScoreboard : Nat → Bool
  readyInsts : List Nat

namespace InstQueue

variable (numPhysRegs : Nat)

def initial : InstQueue where
  insts := fun _ => {}
  instList := fun _ => []
  dependGraph := fun _ => []
  producer := fun _ => none
  regScoreboard := fun _ => false
  readyInsts := []

section

variable (sn : Nat)
include sn

def modify (f : IqEntry → IqEntry) (q : InstQueue) : InstQueue :=
  { q with insts := Function.update q.insts sn (f (q.insts sn)) }

def addIfReady (q : InstQueue) : InstQueue :=
  if (q.insts sn).canIssue then { q with readyInsts := sn :: q.readyInsts } else q

def addSource (q : InstQueue) (src : Nat × Nat) : InstQueue :=
  if (q.insts sn).readySrcRegIdx src.2 then q
  else if numPhysRegs ≤ src.1 then q
  else if q.regScoreboard src.1 then q.modify sn (fun e => e.markSrcRegIdxReady src.2)
  else { q with dependGraph := Function.update q.dependGraph src.1 (sn :: q.dependGraph src.1) }

def addToDependents (q : InstQueue) : InstQueue :=
  (q.insts sn).srcRegs.zipIdx.foldl (addSource numPhysRegs sn) q

/-- `none` is the panic: the chain of the register is not empty. -/
def addProducer (q : InstQueue) (dest : Nat) : Option InstQueue :=
  if numPhysRegs ≤ dest then some q
  else if q.dependGraph dest ≠ [] then none
  else some
    { q with
      producer := Function.update q.producer dest (some sn)
      regScoreboard := Function.update q.regScoreboard dest false }

def addToProducers (q : InstQueue) : Option InstQueue :=
  (q.insts sn).destRegs.foldlM (addProducer numPhysRegs sn) q

def enqueue (e : IqEntry) (q : InstQueue) : InstQueue :=
  { q with
    insts := Function.update q.insts sn e
    instList := Function.update q.instList e.threadNumber (q.instList e.threadNumber ++ [sn]) }

/-- The memory dependence unit learns of a memory instruction. If it finds a store to wait for, the
instruction can not issue for now. -/
def memDepInsert (storeFound : Bool) (q : InstQueue) : InstQueue :=
  if storeFound then (q.addIfReady sn).modify sn (fun e => { e with canIssue := false })
  else q.addIfReady sn

def insert (e : IqEntry) (storeFound : Bool) (q : InstQueue) : Option InstQueue :=
  (addToProducers numPhysRegs sn (addToDependents numPhysRegs sn (q.enqueue sn e))).map (fun q =>
    if e.isMemRef then q.memDepInsert sn storeFound else q.addIfReady sn)

def insertNonSpec (e : IqEntry) (q : InstQueue) : Option InstQueue :=
  addToProducers numPhysRegs sn (q.enqueue sn e)

end

def wakeInst (q : InstQueue) (sn : Nat) : InstQueue :=
  (q.modify sn IqEntry.markSrcRegReady).addIfReady sn

/-- The loop that pops the chain of a register. -/
def wakeReg (q : InstQueue) (dest : Nat) : InstQueue :=
  if numPhysRegs ≤ dest then q
  else
    let q := (q.dependGraph dest).foldl wakeInst q
    { q with
      dependGraph := Function.update q.dependGraph dest []
      producer := Function.update q.producer dest none
      regScoreboard := Function.update q.regScoreboard dest true }

def wakeDependents (sn : Nat) (q : InstQueue) : InstQueue :=
  let q := if (q.insts sn).isMemRef then q.modify sn (fun e => { e with memOpDone := true }) else q
  (q.insts sn).destRegs.foldl (wakeReg numPhysRegs) q

/-- An instruction is taken out of a chain once. `none` is the failed assertion: the chain is not
empty, and the instruction is not found. -/
def remove (reg sn : Nat) (q : InstQueue) : Option InstQueue :=
  if q.dependGraph reg = [] then some q
  else if sn ∈ q.dependGraph reg then
    some { q with dependGraph := Function.update q.dependGraph reg ((q.dependGraph reg).erase sn) }
  else none

def removeSource (sn : Nat) (q : InstQueue) (src : Nat × Nat) : Option InstQueue :=
  if !(q.insts sn).readySrcRegIdx src.2 && decide (src.1 < numPhysRegs) then q.remove src.1 sn
  else some q

def removeFromChains (sn : Nat) (q : InstQueue) : Option InstQueue :=
  (q.insts sn).srcRegs.zipIdx.foldlM (removeSource numPhysRegs sn) q

def squashInst (sn : Nat) (q : InstQueue) : Option InstQueue :=
  let e := q.insts sn
  if !e.issued || (e.isMemRef && !e.memOpDone) then
    (if e.inChains then removeFromChains numPhysRegs sn q else some q).map (fun q =>
      q.modify sn (fun e => { e with squashedInIQ := true, issued := true }))
  else some q

/-- The loop of `doSquash` over the instructions of a thread, the youngest first: those that stay on
the list, and the queue. -/
def squashLoop (tid squashedSeqNum : Nat) : List Nat → InstQueue → Option (List Nat × InstQueue)
  | [], q => some ([], q)
  | sn :: rest, q =>
    if squashedSeqNum < sn then
      if (q.insts sn).threadNumber ≠ tid ∨ (q.insts sn).squashedInIQ = true then
        (squashLoop tid squashedSeqNum rest q).map (fun (kept, q) => (sn :: kept, q))
      else (squashInst numPhysRegs sn q).bind (squashLoop tid squashedSeqNum rest)
    else some (sn :: rest, q)

def squash (tid squashedSeqNum : Nat) (q : InstQueue) : Option InstQueue :=
  (squashLoop numPhysRegs tid squashedSeqNum (q.instList tid).reverse q).map (fun (kept, q) =>
    { q with instList := Function.update q.instList tid kept.reverse })

def commit (tid sn : Nat) (q : InstQueue) : InstQueue :=
  { q with
    instList := Function.update q.instList tid ((q.instList tid).dropWhile (fun j => j ≤ sn)) }

def issue (sn : Nat) (q : InstQueue) : InstQueue :=
  { q.modify sn (fun e => { e with issued := true }) with readyInsts := q.readyInsts.erase sn }

end InstQueue

end Gem5.O3
