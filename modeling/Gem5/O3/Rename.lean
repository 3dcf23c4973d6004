import Gem5.Lib.Transition
import Gem5.Lib.Outcome

namespace Gem5.O3

open Lib

inductive RegClass
  | int
  | float
  | cc
deriving DecidableEq

inductive ArchReg
  | renamed (cls : RegClass) (idx : Nat)
  | misc (idx : Nat)
deriving DecidableEq

/-- The register files of a CPU. A class without a zero register has an index out of range
for it. -/
structure RegConfig where
  numThreads : Nat
  numArchRegs : RegClass → Nat
  numPhysRegs : RegClass → Nat
  zeroReg : RegClass → Nat
  enough : ∀ c, numThreads * numArchRegs c ≤ numPhysRegs c

namespace RegConfig

variable (cfg : RegConfig)

def baseRegIndex : RegClass → Nat
  | .int => 0
  | .float => cfg.numPhysRegs .int
  | .cc => cfg.numPhysRegs .int + cfg.numPhysRegs .float

def totalNumPhysRegs : Nat :=
  cfg.numPhysRegs .int + cfg.numPhysRegs .float + cfg.numPhysRegs .cc

def isPhysReg (c : RegClass) (reg : Nat) : Bool :=
  cfg.baseRegIndex c ≤ reg && reg < cfg.baseRegIndex c + cfg.numPhysRegs c

def physRegs (c : RegClass) : List Nat := List.range' (cfg.baseRegIndex c) (cfg.numPhysRegs c)

def lookupMisc (idx : Nat) : Nat := idx + cfg.totalNumPhysRegs

end RegConfig

structure RenameHistory where
  instSeqNum : Nat
  archReg : ArchReg
  newPhysReg : Nat
  prevPhysReg : Nat
deriving DecidableEq

/-- The free lists, and the rename map and the history buffer of each thread. A history has
its youngest entry in front. -/
structure Rename where
  freeList : RegClass → List Nat
  renameMap : Nat → RegClass → Nat → Nat
  historyBuffer : Nat → List RenameHistory

/-- The assertions that a run can meet: a register from an empty list, a zero register that
is mapped elsewhere, and a physical register of the wrong class. -/
inductive RenameFault
  | emptyFreeList
  | zeroReg
  | regClass
deriving DecidableEq

/-- An instruction as rename sees it: the destinations are in program order. -/
structure RenamedInst where
  seqNum : Nat
  destRegs : List ArchReg

namespace Rename

def setFree (s : Rename) (c : RegClass) (regs : List Nat) : Rename :=
  { s with freeList := Function.update s.freeList c regs }

def setMap (m : RegClass → Nat → Nat) (c : RegClass) (idx reg : Nat) : RegClass → Nat → Nat :=
  Function.update m c (Function.update (m c) idx reg)

def setEntry (s : Rename) (tid : Nat) (c : RegClass) (idx reg : Nat) : Rename :=
  { s with renameMap := Function.update s.renameMap tid (setMap (s.renameMap tid) c idx reg) }

def setHistory (s : Rename) (tid : Nat) (entries : List RenameHistory) : Rename :=
  { s with historyBuffer := Function.update s.historyBuffer tid entries }

def getReg (s : Rename) (c : RegClass) : Except RenameFault (Nat × Rename) :=
  match s.freeList c with
  | [] => .error .emptyFreeList
  | reg :: rest => .ok (reg, s.setFree c rest)

variable (cfg : RegConfig)

/-- `UnifiedFreeList::addReg`: the class is found from the index. -/
def addReg (s : Rename) (reg : Nat) : Except RenameFault Rename :=
  if cfg.isPhysReg .int reg then .ok (s.setFree .int (s.freeList .int ++ [reg]))
  else if cfg.isPhysReg .float reg then .ok (s.setFree .float (s.freeList .float ++ [reg]))
  else if cfg.isPhysReg .cc reg then .ok (s.setFree .cc (s.freeList .cc ++ [reg]))
  else .error .regClass

/-- `SimpleRenameMap::rename` with the check of its caller: the new and the previous
register. -/
def renameReg (s : Rename) (tid : Nat) (c : RegClass) (idx : Nat) :
    Except RenameFault (Nat × Nat × Rename) := do
  let prev := s.renameMap tid c idx
  if idx ≠ cfg.zeroReg c then
    let (reg, s) ← s.getReg c
    if cfg.isPhysReg c reg then pure (reg, prev, s.setEntry tid c idx reg) else throw .regClass
  else if prev ≠ cfg.zeroReg c then throw .zeroReg
  else if cfg.isPhysReg c (cfg.zeroReg c) then pure (cfg.zeroReg c, prev, s)
  else throw .regClass

def renameDestReg (tid seqNum : Nat) (s : Rename) (dest : ArchReg) : Except RenameFault Rename := do
  let (new, prev, s) ←
    match dest with
    | .renamed c idx => s.renameReg cfg tid c idx
    | .misc idx => pure (cfg.lookupMisc idx, cfg.lookupMisc idx, s)
  pure (s.setHistory tid (⟨seqNum, dest, new, prev⟩ :: s.historyBuffer tid))

def renameDestRegs (s : Rename) (tid : Nat) (inst : RenamedInst) : Except RenameFault Rename :=
  inst.destRegs.foldlM (renameDestReg cfg tid inst.seqNum) s

def numDestRegs (dests : List ArchReg) (c : RegClass) : Nat :=
  dests.countP (fun d => match d with
    | .renamed c' _ => c' = c
    | .misc _ => false)

def canRename (s : Rename) (inst : RenamedInst) : Prop :=
  ∀ c ∈ [RegClass.int, .float, .cc], numDestRegs inst.destRegs c ≤ (s.freeList c).length

instance (s : Rename) (inst : RenamedInst) : Decidable (s.canRename inst) := by
  unfold canRename
  infer_instance

/-- One round of `doSquash`: the mapping is undone if it was really a change. A misc register
never is one. -/
def undoEntry (s : Rename) (tid : Nat) (e : RenameHistory) : Except RenameFault Rename :=
  if e.newPhysReg ≠ e.prevPhysReg then
    match e.archReg with
    | .renamed c idx =>
      if cfg.isPhysReg c e.prevPhysReg then
        (s.setEntry tid c idx e.prevPhysReg).addReg cfg e.newPhysReg
      else .error .regClass
    | .misc idx =>
      if e.prevPhysReg = cfg.lookupMisc idx then s.addReg cfg e.newPhysReg else .error .regClass
  else .ok s

def doSquashLoop (squashedSeqNum tid : Nat) :
    List RenameHistory → Rename → Except RenameFault Rename
  | [], s => .ok s
  | e :: rest, s =>
    if squashedSeqNum < e.instSeqNum then do
      let s ← s.undoEntry cfg tid e
      doSquashLoop squashedSeqNum tid rest (s.setHistory tid rest)
    else .ok s

def doSquash (s : Rename) (squashedSeqNum tid : Nat) : Except RenameFault Rename :=
  doSquashLoop cfg squashedSeqNum tid (s.historyBuffer tid) s

def freePrev (s : Rename) (e : RenameHistory) : Except RenameFault Rename :=
  if e.newPhysReg ≠ e.prevPhysReg then s.addReg cfg e.prevPhysReg else .ok s

/-- The loop of `removeFromHistory`, over the entries from the oldest on. -/
def removeLoop (instSeqNum tid : Nat) : List RenameHistory → Rename → Except RenameFault Rename
  | [], s => .ok s
  | e :: rest, s =>
    if e.instSeqNum ≤ instSeqNum then do
      let s ← s.freePrev cfg e
      removeLoop instSeqNum tid rest (s.setHistory tid rest.reverse)
    else .ok s

def removeFromHistory (s : Rename) (instSeqNum tid : Nat) : Except RenameFault Rename :=
  removeLoop cfg instSeqNum tid (s.historyBuffer tid).reverse s

/-! The constructor of the CPU. -/

/-- `initFreeList`: all registers are free and no register is mapped yet. -/
def allFree : Rename := ⟨cfg.physRegs, fun _ _ _ => 0, fun _ => []⟩

/-- Maps an architectural register to the next free one. -/
def bindReg (s : Rename) (key : Nat × RegClass × Nat) : Except RenameFault Rename := do
  let (reg, s) ← s.getReg key.2.1
  if cfg.isPhysReg key.2.1 reg then pure (s.setEntry key.1 key.2.1 key.2.2 reg)
  else throw .regClass

def threadRegs (tid : Nat) : List (Nat × RegClass × Nat) :=
  [RegClass.int, .float, .cc].flatMap (fun c =>
    (List.range (cfg.numArchRegs c)).map (fun idx => (tid, c, idx)))

def initial : Except RenameFault Rename :=
  ((List.range cfg.numThreads).flatMap (threadRegs cfg)).foldlM (bindReg cfg) (allFree cfg)

/-! Runs of the stage. -/

inductive Move
  | renameInst (tid : Nat) (inst : RenamedInst)
  | doSquash (squashedSeqNum tid : Nat)
  | removeFromHistory (instSeqNum tid : Nat)

/-- The destinations of an instruction are registers of the ISA. -/
def WellFormed (dests : List ArchReg) : Prop :=
  ∀ d ∈ dests, match d with
    | .renamed c idx => idx < cfg.numArchRegs c
    | .misc _ => True

instance (dests : List ArchReg) : Decidable (WellFormed cfg dests) := by
  unfold WellFormed
  refine @List.decidableBAll _ _ (fun d => ?_) dests
  cases d <;> infer_instance

def run (s : Rename) : Move → Except RenameFault Rename
  | .renameInst tid inst => s.renameDestRegs cfg tid inst
  | .doSquash squashedSeqNum tid => s.doSquash cfg squashedSeqNum tid
  | .removeFromHistory instSeqNum tid => s.removeFromHistory cfg instSeqNum tid

/-- When a move is made: an instruction is renamed only after `canRename` has accepted it. -/
def Enabled (s : Rename) : Move → Prop
  | .renameInst tid inst => tid < cfg.numThreads ∧ WellFormed cfg inst.destRegs ∧ s.canRename inst
  | .doSquash _ tid => tid < cfg.numThreads
  | .removeFromHistory _ tid => tid < cfg.numThreads

instance (s : Rename) (m : Move) : Decidable (Enabled cfg s m) := by
  cases m <;> unfold Enabled <;> infer_instance

def machine : Machine Rename Move where
  init s := initial cfg = .ok s
  step s m t := Enabled cfg s m ∧ run cfg s m = .ok t

def move (s : Rename) (m : Move) : Option Rename :=
  if Enabled cfg s m then (run cfg s m).toOption else none

theorem step_of_move (h : move cfg s m = some t) : (machine cfg).step s m t := by
  obtain ⟨hm, h⟩ := Option.ite_none_right_eq_some.mp h
  exact ⟨hm, toOption_eq_some.mp h⟩

end Rename

end Gem5.O3
