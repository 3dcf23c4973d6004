import Gem5.Lib.Outcome
import Gem5.Lib.PriorityQueue
import Gem5.Ruby.Topology

namespace Gem5.Garnet

open Lib

/-- The assertions of the network that a wakeup can fail, and its fatal errors. -/
inductive Fault
  | headVcNotIdle
  | bodyVcNotActive
  | needStage
  | inputVcNotEmpty
  | noOutVc
  | outVcNotActive
  | creditAboveMax
  | creditBelowZero
  | portRange
  | noRoute
  | badDirection
  | customRouting
  | protocolBuffer
deriving DecidableEq, Repr

inductive FlitType
  | head | body | tail | headTail
deriving DecidableEq, Repr

inductive FlitStage
  | i | va | sa | st | lt
deriving DecidableEq, Repr

inductive VcState
  | idle | active
deriving DecidableEq, Repr

/-- What all flits of a packet share: the message it carries a copy of, with the
destination of the copy, and the route. -/
structure Packet where
  msg : Nat
  destination : List Nat
  vnet : Nat
  size : Nat
  srcNi : Nat
  destNi : Nat
  destRouter : Nat
deriving DecidableEq, Repr

structure Flit where
  packet : Packet
  id : Nat
  vc : Nat
  time : Nat
  stage : FlitStage × Nat
  outport : Nat := 0
deriving DecidableEq, Repr

namespace Flit

def type (f : Flit) : FlitType :=
  if f.packet.size = 1 then .headTail
  else if f.id = 0 then .head
  else if f.id = f.packet.size - 1 then .tail
  else .body

def isHead (f : Flit) : Bool := f.type = .head ∨ f.type = .headTail

def isTail (f : Flit) : Bool := f.type = .tail ∨ f.type = .headTail

def isStage (f : Flit) (stage : FlitStage) (time : Nat) : Bool :=
  stage = f.stage.1 ∧ f.stage.2 ≤ time

def key (f : Flit) : Nat × Nat := (f.time, f.id)

theorem isHead_iff {f : Flit} (h : f.id < f.packet.size) : f.isHead = true ↔ f.id = 0 := by
  unfold isHead type
  split
  · simp
    omega
  · split
    · simp [*]
    · split <;> simp <;> omega

theorem isTail_iff {f : Flit} (h : f.id < f.packet.size) :
    f.isTail = true ↔ f.id + 1 = f.packet.size := by
  unfold isTail type
  split
  · simp
    omega
  split
  · simp
    omega
  · split
    · simp
      omega
    · simp
      omega

end Flit

/-- A credit for a VC. It tells whether the VC is free again. -/
structure Credit where
  vc : Nat
  isFreeSignal : Bool
  time : Nat
deriving DecidableEq, Repr

/-- All credits have the id 0. -/
def Credit.key (c : Credit) : Nat × Nat := (c.time, 0)

/-- The heap operations that the flit buffers are made of. -/
structure Heaps where
  flits : HeapOps Flit (KeyLt Flit.key)
  credits : HeapOps Credit (KeyLt Credit.key)

def Heaps.sorted : Heaps := ⟨sortedHeap Flit.key, sortedHeap Credit.key⟩

abbrev FlitBuffer (X : Heaps) := PQueue X.flits

abbrev CreditBuffer (X : Heaps) := PQueue X.credits

def FlitBuffer.isReady {X : Heaps} (b : FlitBuffer X) (curTime : Nat) : Bool :=
  b.front.any (fun f => f.time ≤ curTime)

def FlitBuffer.getReady {X : Heaps} (b : FlitBuffer X) (curTime : Nat) :
    Option (Flit × FlitBuffer X) :=
  b.takeIf (fun f => f.time ≤ curTime)

def CreditBuffer.getReady {X : Heaps} (b : CreditBuffer X) (curTime : Nat) :
    Option (Credit × CreditBuffer X) :=
  b.takeIf (fun c => c.time ≤ curTime)

/-! ### Routing -/

inductive RoutingAlgorithm
  | table | xy | custom
deriving DecidableEq, Repr

inductive PortDirection
  | localNode | north | east | south | west | other (name : Nat)
deriving DecidableEq, Repr

structure Routing where
  algorithm : RoutingAlgorithm
  /-- `m_routing_table` and `m_weight_table` of a router, by output port -/
  table : Nat → List Ruby.OutPort
  /-- `get_router_id` of a node -/
  routerOf : Nat → Nat
  numRows : Nat
  numCols : Nat
  inportDirection : Nat → Nat → PortDirection
  outportIdx : Nat → PortDirection → Nat

namespace Routing

/-- The table with the number of each output port in the place of what it leads to. -/
def numbered (table : List Ruby.OutPort) : List Ruby.OutPort :=
  table.zipIdx.map (fun e => { e.1 with next := e.2 })

def lookupRoutingTable (R : Routing) (router : Nat) (vnetOrdered : Bool) (rand : Nat)
    (msgDestination : List Nat) : Except Fault Nat :=
  match Ruby.lookupRoutingTable (numbered (R.table router)) vnetOrdered rand msgDestination with
  | some p => .ok p.next
  | none => .error .noRoute

/-- The output direction of XY routing, with its assertions on the input direction. -/
def directionXY (R : Routing) (myId destId : Nat) (inportDirn : PortDirection) :
    Except Fault PortDirection :=
  let myX := myId % R.numCols
  let myY := myId / R.numCols
  let destX := destId % R.numCols
  let destY := destId / R.numCols
  if R.numRows = 0 ∨ R.numCols = 0 then .error .badDirection
  else if destX ≠ myX then
    if myX ≤ destX then
      if inportDirn = .localNode ∨ inportDirn = .west then .ok .east else .error .badDirection
    else if inportDirn = .localNode ∨ inportDirn = .east then .ok .west
    else .error .badDirection
  else if destY ≠ myY then
    if myY ≤ destY then
      if inportDirn ≠ .north then .ok .north else .error .badDirection
    else if inportDirn ≠ .south then .ok .south
    else .error .badDirection
  else .error .badDirection

def outportComputeXY (R : Routing) (myId destId inport : Nat) : Except Fault Nat :=
  (R.directionXY myId destId (R.inportDirection myId inport)).map (R.outportIdx myId)

def outportCompute (R : Routing) (router inport : Nat) (vnetOrdered : Bool) (rand : Nat)
    (route : Packet) : Except Fault Nat :=
  if route.destRouter = router then
    R.lookupRoutingTable router vnetOrdered rand route.destination
  else
    match R.algorithm with
    | .table => R.lookupRoutingTable router vnetOrdered rand route.destination
    | .xy => R.outportComputeXY router route.destRouter inport
    | .custom => .error .customRouting

end Routing

end Gem5.Garnet
