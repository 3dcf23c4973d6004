import Gem5.Garnet.Flit
import Gem5.Ruby.MessageBuffer

namespace Gem5.Garnet

open Lib Function

/-- An end of a link: a node has one output and one input, a router has many. -/
inductive Port
  | ni (node : Nat)
  | router (router port : Nat)
deriving DecidableEq, Repr

/-- What wakes up. Each link is named by the output it starts at, and with a link comes
the credit link that leads back. -/
inductive Component
  | ni (node : Nat)
  | router (router : Nat)
  | link (source : Port)
  | credit (source : Port)
deriving DecidableEq, Repr

/-- The end belongs to one of `nodes` nodes, or to a router with so many `ports`. -/
def Port.Below (nodes : Nat) (ports : Nat → Nat) : Port → Prop
  | .ni n => n < nodes
  | .router r p => p < ports r

instance (nodes : Nat) (ports : Nat → Nat) : (p : Port) → Decidable (p.Below nodes ports)
  | .ni n => inferInstanceAs (Decidable (n < nodes))
  | .router r p => inferInstanceAs (Decidable (p < ports r))

/-- A network. The links are a bijection from outputs to inputs: those that exist lead to
inputs that exist. A link takes a cycle at least, for flits and for credits; the parameters
would allow none. -/
structure Config where
  virtualNetworks : Nat
  vcPerVnet : Nat
  isVNetOrdered : Nat → Bool
  isDataVnet : Nat → Bool
  buffersPerDataVC : Nat
  buffersPerCtrlVC : Nat
  niFlitSize : Nat
  niFlitSize_pos : 0 < niFlitSize
  nodes : Nat
  numInports : Nat → Nat
  numOutports : Nat → Nat
  pipeStages : Nat → Nat
  pipeStages_pos : ∀ router, 0 < pipeStages router
  wiring : Port ≃ Port
  linkLatency : Port → Nat
  linkLatency_pos : ∀ source, 0 < linkLatency source
  creditLatency : Port → Nat
  creditLatency_pos : ∀ source, 0 < creditLatency source
  routing : Routing
  wiring_below : ∀ source : Port, source.Below nodes numOutports →
    (wiring source).Below nodes numInports

namespace Config

variable (cfg : Config)

def numVcs : Nat := cfg.virtualNetworks * cfg.vcPerVnet

def vnetOf (vc : Nat) : Nat := vc / cfg.vcPerVnet

/-- `m_max_credit_count` of an output VC, which depends on the type of its virtual network. -/
def maxCreditCount (vc : Nat) : Nat :=
  if cfg.isDataVnet (cfg.vnetOf vc) then cfg.buffersPerDataVC else cfg.buffersPerCtrlVC

def vcsOf (vnet : Nat) : List Nat := (List.range cfg.vcPerVnet).map (vnet * cfg.vcPerVnet + ·)

/-- The link that starts at an output is there. -/
abbrev LinkExists (source : Port) : Prop := source.Below cfg.nodes cfg.numOutports

def linkTo (target : Port) : Port := cfg.wiring.symm target

/-- Who takes the flits of a link. -/
def consumer (source : Port) : Component :=
  match cfg.wiring source with
  | .ni n => .ni n
  | .router r _ => .router r

def numFlits (messageSize : Nat) : Nat := (messageSize + cfg.niFlitSize - 1) / cfg.niFlitSize

end Config

/-- Who takes the credits of a link. -/
def creditConsumer : Port → Component
  | .ni n => .ni n
  | .router r _ => .router r

structure OutVcState where
  state : VcState
  time : Nat
  creditCount : Nat
deriving DecidableEq

namespace OutVcState

section

variable (o : OutVcState)
include o

def isInState (state : VcState) (requestTime : Nat) : Bool :=
  o.state = state ∧ o.time ≤ requestTime

def setState (state : VcState) (time : Nat) : OutVcState := { o with state, time }

def hasCredit : Bool := 0 < o.creditCount

def incrementCredit (maxCreditCount : Nat) : Except Fault OutVcState :=
  if o.creditCount + 1 ≤ maxCreditCount then .ok { o with creditCount := o.creditCount + 1 }
  else .error .creditAboveMax

def decrementCredit : Except Fault OutVcState :=
  if 0 < o.creditCount then .ok { o with creditCount := o.creditCount - 1 }
  else .error .creditBelowZero

end

end OutVcState

structure VirtualChannel (X : Heaps) where
  buffer : FlitBuffer X
  state : VcState
  stateTime : Nat
  outport : Option Nat
  enqueueTime : Nat
  outvc : Option Nat

/-- `INFINITE_` of the network, which is also the enqueue time of a VC without a packet. -/
def INFINITE_ : Nat := 10000

namespace VirtualChannel

variable {X : Heaps}

def new (X : Heaps) : VirtualChannel X := ⟨.empty _, .idle, 0, none, INFINITE_, none⟩

def setIdle (vc : VirtualChannel X) (curTime : Nat) : VirtualChannel X :=
  { vc with
    state := .idle, stateTime := curTime, enqueueTime := INFINITE_, outport := none, outvc := none }

def setActive (vc : VirtualChannel X) (curTime : Nat) : VirtualChannel X :=
  { vc with state := .active, stateTime := curTime, enqueueTime := curTime }

def needStage (vc : VirtualChannel X) (stage : FlitStage) (time : Nat) : Except Fault Bool :=
  match vc.buffer.front with
  | none => .ok false
  | some f =>
    if f.time ≤ time then
      if vc.state = .active ∧ vc.stateTime ≤ time then .ok (f.isStage stage time)
      else .error .needStage
    else .ok false

end VirtualChannel

/-- A link with its two ends: upstream the output VCs and the buffer the link takes flits
from, downstream the input VCs (of a router) and the queue its credit link takes credits
from. -/
structure Channel (X : Heaps) where
  outVcs : Nat → OutVcState
  outQueue : FlitBuffer X
  linkBuffer : FlitBuffer X
  vcs : Nat → VirtualChannel X
  creditQueue : CreditBuffer X
  creditBuffer : CreditBuffer X

/-- The allocators of a router, and the flits in the switch buffers of its crossbar with
their input port. -/
structure RouterState where
  roundRobinInvc : Nat → Nat
  roundRobinInport : Nat → Nat
  switchBuffer : List (Nat × Flit)

/-- A network interface. From `lastWakeup` on it is a record of what happened: the cycle in
which it woke up last, the messages that were put into its buffers with their virtual
network and destinations, the packets it made, the messages it took from the buffers, and
the packets whose message it handed over. -/
structure NetworkInterface (X : Heaps) where
  inNode : Nat → Ruby.MessageBuffer
  outVcBuffers : Nat → FlitBuffer X
  enqueueTime : Nat → Nat
  vcAllocator : Nat → Nat
  vcRoundRobin : Nat
  lastWakeup : Option Nat
  sent : List (Nat × Nat × List Nat)
  injected : List Packet
  dequeued : List (Nat × Nat)
  delivered : List Packet

structure MessageObject where
  destination : List Nat
  size : Nat
deriving DecidableEq, Repr

/-- A network and the wakeups that are scheduled in it, at the cycle `now`. -/
structure Net (X : Heaps) where
  now : Nat
  events : List (Component × Nat)
  channels : Port → Channel X
  routers : Nat → RouterState
  nis : Nat → NetworkInterface X
  messages : Nat → MessageObject
  nextMessage : Nat

namespace Net

variable {X : Heaps}

section

variable (s : Net X)
include s

def schedule (c : Component) (time : Nat) : Net X :=
  { s with events := (c, time) :: s.events }

def setChannel (source : Port) (ch : Channel X) : Net X :=
  { s with channels := Function.update s.channels source ch }

def setNi (n : Nat) (ni : NetworkInterface X) : Net X :=
  { s with nis := Function.update s.nis n ni }

def setRouter (r : Nat) (router : RouterState) : Net X :=
  { s with routers := Function.update s.routers r router }

@[simp]
theorem channels_setChannel_self (source : Port) (ch : Channel X) :
    (s.setChannel source ch).channels source = ch :=
  update_self _ _ _

theorem channels_setChannel_of_ne (h : source' ≠ source)
    (ch : Channel X) : (s.setChannel source ch).channels source' = s.channels source' :=
  update_of_ne h _ _

/-- What the new channel has in common with the old one stays at every source. -/
theorem keeps_setChannel (f : Channel X → β) (h : f ch = f (s.channels source)) (source' : Port) :
    f ((s.setChannel source ch).channels source') = f (s.channels source') := by
  obtain rfl | hs := eq_or_ne source' source
  · rw [s.channels_setChannel_self, h]
  · rw [s.channels_setChannel_of_ne hs]

@[simp]
theorem nis_setNi_self (n : Nat) (ni : NetworkInterface X) : (s.setNi n ni).nis n = ni :=
  update_self _ _ _

theorem nis_setNi_of_ne (h : m ≠ n) (ni : NetworkInterface X) : (s.setNi n ni).nis m = s.nis m :=
  update_of_ne h _ _

@[simp]
theorem routers_setRouter_self (r : Nat) (router : RouterState) :
    (s.setRouter r router).routers r = router :=
  update_self _ _ _

theorem routers_setRouter_of_ne (h : r' ≠ r) (router : RouterState) :
    (s.setRouter r router).routers r' = s.routers r' :=
  update_of_ne h _ _

def arrival (source : Port) : Option (Flit × FlitBuffer X) :=
  FlitBuffer.getReady (s.channels source).linkBuffer s.now

end

end Net

namespace Channel

variable {X : Heaps}

section

variable (ch : Channel X)
include ch

def setOutVc (vc : Nat) (o : OutVcState) : Channel X :=
  { ch with outVcs := Function.update ch.outVcs vc o }

def setVc (vc : Nat) (v : VirtualChannel X) : Channel X :=
  { ch with vcs := Function.update ch.vcs vc v }

@[simp]
theorem vcs_setVc_self (vc : Nat) (v : VirtualChannel X) : (ch.setVc vc v).vcs vc = v :=
  update_self _ _ _

theorem vcs_setVc_of_ne (h : u ≠ vc) (v : VirtualChannel X) : (ch.setVc vc v).vcs u = ch.vcs u :=
  update_of_ne h _ _

@[simp]
theorem outVcs_setOutVc_self (vc : Nat) (o : OutVcState) : (ch.setOutVc vc o).outVcs vc = o :=
  update_self _ _ _

/-- A credit for a VC, put where the credit link takes it from. -/
def returnCredit (vc : Nat) (isFreeSignal : Bool) (curTime : Nat) : Channel X :=
  { ch with creditQueue := ch.creditQueue.insert ⟨vc, isFreeSignal, curTime⟩ }

/-- What both an output unit and a network interface do with a credit that is ready. -/
def takeCredit (maxCreditCount : Nat → Nat) (curTime : Nat) : Except Fault (Channel X) :=
  match CreditBuffer.getReady ch.creditBuffer curTime with
  | none => .ok ch
  | some (c, rest) => do
    let o ← (ch.outVcs c.vc).incrementCredit (maxCreditCount c.vc)
    .ok (({ ch with creditBuffer := rest }).setOutVc c.vc
      (if c.isFreeSignal then o.setState .idle curTime else o))

end

end Channel

/-! ### Links -/

def NetworkLink.wakeup {X : Heaps} (cfg : Config) (source : Port) (s : Net X) : Net X :=
  let ch := s.channels source
  match FlitBuffer.getReady ch.outQueue s.now with
  | none => s
  | some (f, rest) =>
    let time := s.now + cfg.linkLatency source
    (s.setChannel source { ch with
      outQueue := rest
      linkBuffer := ch.linkBuffer.insert { f with time } }).schedule (cfg.consumer source) time

/-- The wakeup of a credit link, which is a network link for credits. -/
def CreditLink.wakeup {X : Heaps} (cfg : Config) (source : Port) (s : Net X) : Net X :=
  let ch := s.channels source
  match CreditBuffer.getReady ch.creditQueue s.now with
  | none => s
  | some (c, rest) =>
    let time := s.now + cfg.creditLatency source
    (s.setChannel source { ch with
      creditQueue := rest
      creditBuffer := ch.creditBuffer.insert { c with time } }).schedule
        (creditConsumer source) time

end Gem5.Garnet
