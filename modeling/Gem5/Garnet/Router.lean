import Gem5.Garnet.Network

namespace Gem5.Garnet

open Lib

variable {X : Heaps}

/-- The VC that a flit arrives in: a head flit makes it active and gets its route. -/
def InputUnit.activate (cfg : Config) (r inport rand curTime : Nat) (f : Flit)
    (v : VirtualChannel X) : Except Fault (VirtualChannel X) :=
  if f.isHead then
    if v.state = .idle then
      (cfg.routing.outportCompute r inport (cfg.isVNetOrdered f.packet.vnet) rand f.packet).map
        (fun outport => { v.setActive curTime with outport := some outport })
    else .error .headVcNotIdle
  else if v.state = .active then .ok v
  else .error .bodyVcNotActive

def InputUnit.wakeup (cfg : Config) (r : Nat) (rand : Nat → Nat) (s : Net X) (inport : Nat) :
    Except Fault (Net X) :=
  let source := cfg.linkTo (.router r inport)
  match s.arrival source with
  | none => .ok s
  | some (f, rest) => do
    let v ← InputUnit.activate cfg r inport (rand inport) s.now f ((s.channels source).vcs f.vc)
    let time := s.now + (cfg.pipeStages r - 1)
    let s := s.setChannel source (({ s.channels source with linkBuffer := rest }).setVc f.vc
      { v with buffer := v.buffer.insert { f with stage := (.sa, time) } })
    -- a router of one stage does not have to come back for the flit
    .ok (if cfg.pipeStages r = 1 then s else s.schedule (.router r) time)

def OutputUnit.wakeup (cfg : Config) (r : Nat) (s : Net X) (outport : Nat) :
    Except Fault (Net X) := do
  let ch ← (s.channels (.router r outport)).takeCredit cfg.maxCreditCount s.now
  .ok (s.setChannel (.router r outport) ch)

namespace OutputUnit

def hasCredit (o : OutVcState) (curTime : Nat) : Except Fault Bool :=
  if o.isInState .active curTime then .ok o.hasCredit else .error .outVcNotActive

/-- The first idle VC of a virtual network, which both `has_free_vc` and `select_free_vc`
look for. -/
def freeVc (cfg : Config) (vnet : Nat) (outVcs : Nat → OutVcState) (curTime : Nat) : Option Nat :=
  (cfg.vcsOf vnet).find? (fun vc => (outVcs vc).isInState .idle curTime)

end OutputUnit

namespace SwitchAllocator

def inputVc (cfg : Config) (s : Net X) (r inport vc : Nat) : VirtualChannel X :=
  (s.channels (cfg.linkTo (.router r inport))).vcs vc

/-- A VC of the same input port was enqueued before and is ready to take the same output
port. -/
def isEarlier (cfg : Config) (s : Net X) (r inport outport enqueueTime vc : Nat) :
    Except Fault Bool := do
  let v := inputVc cfg s r inport vc
  let ready ← v.needStage .sa s.now
  .ok (ready && v.outport = some outport && v.enqueueTime < enqueueTime)

/-- There is an output VC for the flit, and a place in it. Each VC has at least one. -/
def hasRoom (cfg : Config) (s : Net X) (r vnet outport : Nat) : Option Nat → Except Fault Bool
  | none => .ok (OutputUnit.freeVc cfg vnet (s.channels (.router r outport)).outVcs s.now).isSome
  | some vc => OutputUnit.hasCredit ((s.channels (.router r outport)).outVcs vc) s.now

/-- In an ordered virtual network, no VC of the input port is earlier. -/
def inOrder (cfg : Config) (s : Net X) (r inport invc outport : Nat) : Except Fault Bool :=
  let vnet := cfg.vnetOf invc
  if cfg.isVNetOrdered vnet then
    ((cfg.vcsOf vnet).anyM
      (isEarlier cfg s r inport outport (inputVc cfg s r inport invc).enqueueTime)).map (!·)
  else .ok true

def sendAllowed (cfg : Config) (s : Net X) (r inport invc outport : Nat) (outvc : Option Nat) :
    Except Fault Bool := do
  if ← hasRoom cfg s r (cfg.vnetOf invc) outport outvc then inOrder cfg s r inport invc outport
  else .ok false

/-- The first VC of an input port that may send, and the output port it asks for. -/
def pickVc (cfg : Config) (s : Net X) (r inport : Nat) :
    List Nat → Except Fault (Option (Nat × Nat))
  | [] => .ok none
  | invc :: rest => do
    let v := inputVc cfg s r inport invc
    if ← v.needStage .sa s.now then
      match v.outport with
      | none => .error .portRange
      | some outport =>
        if ← sendAllowed cfg s r inport invc outport v.outvc then .ok (some (outport, invc))
        else pickVc cfg s r inport rest
    else pickVc cfg s r inport rest

def roundRobin (start n : Nat) : List Nat := (List.range n).map (fun i => (start + i) % n)

def advance (start n : Nat) : Nat := if n ≤ start + 1 then 0 else start + 1

def requests (cfg : Config) (r : Nat) (s : Net X) : Except Fault (List (Option (Nat × Nat))) :=
  (List.range (cfg.numInports r)).mapM (fun inport =>
    pickVc cfg s r inport (roundRobin ((s.routers r).roundRobinInvc inport) cfg.numVcs))

/-- The input port, and the VC of it, that gets an output port. -/
def winner (requests : List (Option (Nat × Nat))) (outport : Nat) (order : List Nat) :
    Option (Nat × Nat) :=
  order.findSome? (fun inport =>
    match requests[inport]? with
    | some (some (o, invc)) => if o = outport then some (inport, invc) else none
    | _ => none)

/-- `vc_allocate`, unless the VC has its output VC already. -/
def outVcFor (cfg : Config) (r outport inport invc : Nat) (s : Net X) :
    Except Fault (Nat × Net X) :=
  let source := cfg.linkTo (.router r inport)
  let v := (s.channels source).vcs invc
  match v.outvc with
  | some vc => .ok (vc, s)
  | none =>
    let ch := s.channels (.router r outport)
    match OutputUnit.freeVc cfg (cfg.vnetOf invc) ch.outVcs s.now with
    | none => .error .noOutVc
    | some vc =>
      let s := s.setChannel (.router r outport)
        (ch.setOutVc vc ((ch.outVcs vc).setState .active s.now))
      .ok (vc, s.setChannel source ((s.channels source).setVc invc
        { (s.channels source).vcs invc with outvc := some vc }))

/-- The input VC without a flit that it sent: the last one leaves it empty, and idle. -/
def release (v : VirtualChannel X) (f : Flit) (curTime : Nat) : Except Fault (VirtualChannel X) :=
  if f.isTail then
    if FlitBuffer.isReady v.buffer curTime then .error .inputVcNotEmpty else .ok (v.setIdle curTime)
  else .ok v

/-- The top flit of an input VC goes to the switch, and a credit for it goes back. -/
def sendToSwitch (cfg : Config) (r outport inport invc outvc : Nat) (s : Net X) :
    Except Fault (Net X) :=
  let source := cfg.linkTo (.router r inport)
  let v := (s.channels source).vcs invc
  match v.buffer.front with
  | none => .error .portRange
  | some f => do
    let o ← ((s.channels (.router r outport)).outVcs outvc).decrementCredit
    let s := s.setChannel (.router r outport) ((s.channels (.router r outport)).setOutVc outvc o)
    let s := s.setRouter r { s.routers r with
      switchBuffer := (s.routers r).switchBuffer ++
        [(inport, { f with outport, vc := outvc, stage := (.st, s.now) })] }
    let v ← release { v with buffer := v.buffer.drop } f s.now
    .ok ((s.setChannel source (((s.channels source).setVc invc v).returnCredit invc f.isTail
      s.now)).schedule (.credit source) (s.now + 1))

def arbitrateOutport (cfg : Config) (r : Nat) (requests : List (Option (Nat × Nat))) (s : Net X)
    (outport : Nat) : Except Fault (Net X) :=
  let start := (s.routers r).roundRobinInport outport
  let s := s.setRouter r { s.routers r with
    roundRobinInport := Function.update (s.routers r).roundRobinInport outport
      (advance start (cfg.numInports r)) }
  match winner requests outport (roundRobin start (cfg.numInports r)) with
  | none => .ok s
  | some (inport, invc) => do
    let (outvc, s) ← outVcFor cfg r outport inport invc s
    sendToSwitch cfg r outport inport invc outvc s

/-- Flits that are ready in the next cycle wake the router up again. -/
def checkForWakeup (cfg : Config) (r : Nat) (s : Net X) : Except Fault (Net X) := do
  let ready ← (List.range (cfg.numInports r)).anyM (fun inport =>
    (List.range cfg.numVcs).anyM (fun vc =>
      (inputVc cfg s r inport vc).needStage .sa (s.now + 1)))
  .ok (if ready then s.schedule (.router r) (s.now + 1) else s)

def wakeup (cfg : Config) (r : Nat) (s : Net X) : Except Fault (Net X) := do
  let requests ← requests cfg r s
  let s := s.setRouter r { s.routers r with
    roundRobinInvc := fun inport => advance ((s.routers r).roundRobinInvc inport) cfg.numVcs }
  let s ← (List.range (cfg.numOutports r)).foldlM (arbitrateOutport cfg r requests) s
  checkForWakeup cfg r s

end SwitchAllocator

def CrossbarSwitch.traverse (r : Nat) (s : Net X) (inport : Nat) : Net X :=
  let buffer := (s.routers r).switchBuffer
  match buffer.find? (fun e => e.1 = inport) with
  | none => s
  | some e =>
    if e.2.time ≤ s.now ∧ e.2.isStage .st s.now then
      let source := Port.router r e.2.outport
      let ch := s.channels source
      ((s.setRouter r { s.routers r with switchBuffer := buffer.erase e }).setChannel source
        { ch with
        outQueue := ch.outQueue.insert
          { e.2 with stage := (.lt, s.now + 1), time := s.now + 1 } }).schedule
        (.link source) (s.now + 1)
    else s

def CrossbarSwitch.wakeup (cfg : Config) (r : Nat) (s : Net X) : Net X :=
  (List.range (cfg.numInports r)).foldl (CrossbarSwitch.traverse r) s

def Router.wakeup (cfg : Config) (r : Nat) (rand : Nat → Nat) (s : Net X) :
    Except Fault (Net X) := do
  let s ← (List.range (cfg.numInports r)).foldlM (InputUnit.wakeup cfg r rand) s
  let s ← (List.range (cfg.numOutports r)).foldlM (OutputUnit.wakeup cfg r) s
  let s ← SwitchAllocator.wakeup cfg r s
  .ok (CrossbarSwitch.wakeup cfg r s)

end Gem5.Garnet
