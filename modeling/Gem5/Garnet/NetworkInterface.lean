import Gem5.Garnet.Network

namespace Gem5.Garnet.NetworkInterface

open Lib

variable {X : Heaps}

/-- `calculateVC`: the next idle output VC of a virtual network, and the allocator after
that many rounds. -/
def calculateVC (cfg : Config) (vnet curTime : Nat) (outVcs : Nat → OutVcState) :
    Nat → Nat → Option Nat × Nat
  | 0, allocator => (none, allocator)
  | rounds + 1, allocator =>
    let next := if allocator + 1 = cfg.vcPerVnet then 0 else allocator + 1
    if (outVcs (vnet * cfg.vcPerVnet + allocator)).isInState .idle curTime then
      (some (vnet * cfg.vcPerVnet + allocator), next)
    else calculateVC cfg vnet curTime outVcs rounds next

def flitsOf (packet : Packet) (vc curTime : Nat) : List Flit :=
  (List.range packet.size).map (fun id =>
    { packet, id, vc, time := curTime, stage := (.i, curTime) })

/-- What making flits of a message changes: the interface, the output VCs at its link, and
the message itself. -/
structure Injection (X : Heaps) where
  ni : NetworkInterface X
  channel : Channel X
  msg : MessageObject

def inject (packet : Packet) (vc curTime : Nat) (w : Injection X) : Injection X :=
  { w with
    ni := { w.ni with
      outVcBuffers := Function.update w.ni.outVcBuffers vc
        ((flitsOf packet vc curTime).foldl PQueue.insert (w.ni.outVcBuffers vc))
      enqueueTime := Function.update w.ni.enqueueTime vc curTime
      injected := w.ni.injected ++ [packet] }
    channel := w.channel.setOutVc vc ((w.channel.outVcs vc).setState .active curTime) }

/-- The loop of `flitisizeMessage` over the destinations. `unicast` tells that there was
only one. -/
def flitisizeLoop (cfg : Config) (n vnet msg numFlits curTime : Nat) (unicast : Bool) :
    List Nat → Injection X → Bool × Injection X
  | [], w => (true, w)
  | destId :: rest, w =>
    match calculateVC cfg vnet curTime w.channel.outVcs cfg.vcPerVnet (w.ni.vcAllocator vnet) with
    | (none, allocator) =>
      (false, { w with
        ni := { w.ni with vcAllocator := Function.update w.ni.vcAllocator vnet allocator } })
    | (some vc, allocator) =>
      -- the copy keeps the destinations of the message it is made from
      let destination := if unicast then w.msg.destination else [destId]
      let packet : Packet :=
        ⟨msg, destination, vnet, numFlits, n, destId, cfg.routing.routerOf destId⟩
      let w := { w with
        ni := { w.ni with vcAllocator := Function.update w.ni.vcAllocator vnet allocator }
        msg := if unicast then w.msg
          else { w.msg with destination := w.msg.destination.filter (· ≠ destId) } }
      flitisizeLoop cfg n vnet msg numFlits curTime unicast rest (inject packet vc curTime w)

def flitisizeMessage (cfg : Config) (n vnet msg : Nat) (s : Net X) : Bool × Net X :=
  let m := s.messages msg
  let result := flitisizeLoop cfg n vnet msg (cfg.numFlits m.size) s.now
    (m.destination.length ≤ 1) m.destination ⟨s.nis n, s.channels (.ni n), m⟩
  let w := result.2
  (result.1, { (s.setChannel (.ni n) w.channel).setNi n w.ni with
    messages := Function.update s.messages msg w.msg })

/-- The part of `wakeup` that takes messages from the protocol: one for each virtual
network, until one does not get its VCs. -/
def takeMessages (cfg : Config) (n : Nat) : List Nat → Net X → Except Fault (Net X)
  | [], s => .ok s
  | vnet :: rest, s =>
    match ((s.nis n).inNode vnet).prioHeap with
    | [] => takeMessages cfg n rest s
    | m :: _ =>
      if ((s.nis n).inNode vnet).isReady s.now then
        match flitisizeMessage cfg n vnet m.id s with
        | (false, s) => .ok s
        | (true, s) =>
          match ((s.nis n).inNode vnet).dequeue s.now with
          | none => .error .protocolBuffer
          | some (_, b) =>
            takeMessages cfg n rest (s.setNi n { s.nis n with
              inNode := Function.update (s.nis n).inNode vnet b
              dequeued := (s.nis n).dequeued ++ [(vnet, m.id)] })
      else takeMessages cfg n rest s

/-- The VCs in the order in which `scheduleOutputLink` looks at them. -/
def outputOrder (cfg : Config) (vcRoundRobin : Nat) : List Nat :=
  (List.range cfg.numVcs).map (fun i => (vcRoundRobin + 1 + i) % cfg.numVcs)

/-- A VC has a flit and a credit for it, and in an ordered virtual network no other one
has flits that were enqueued before. -/
def isCandidateVc (cfg : Config) (n : Nat) (s : Net X) (vc : Nat) : Bool :=
  let ni := s.nis n
  FlitBuffer.isReady (ni.outVcBuffers vc) s.now &&
  ((s.channels (.ni n)).outVcs vc).hasCredit &&
  (!cfg.isVNetOrdered (cfg.vnetOf vc) ||
    (cfg.vcsOf (cfg.vnetOf vc)).all (fun t =>
      !(FlitBuffer.isReady (ni.outVcBuffers t) s.now && ni.enqueueTime t < ni.enqueueTime vc)))

def sendFlit (n vc : Nat) (s : Net X) : Except Fault (Net X) :=
  let ni := s.nis n
  let ch := s.channels (.ni n)
  match (ni.outVcBuffers vc).front with
  | none => .ok s
  | some f => do
    let o ← (ch.outVcs vc).decrementCredit
    let enqueueTime :=
      if f.isTail then Function.update ni.enqueueTime vc INFINITE_ else ni.enqueueTime
    .ok (((s.setChannel (.ni n) { ch.setOutVc vc o with
        outQueue := ch.outQueue.insert { f with time := s.now + 1 } }).setNi n { ni with
        outVcBuffers := Function.update ni.outVcBuffers vc (ni.outVcBuffers vc).drop
        enqueueTime }).schedule (.link (.ni n)) (s.now + 1))

section

variable (cfg : Config) (n : Nat) (s : Net X)
include cfg n s

def scheduleOutputLink : Except Fault (Net X) :=
  let order := outputOrder cfg (s.nis n).vcRoundRobin
  let vcRoundRobin :=
    if (s.nis n).vcRoundRobin + 1 = cfg.numVcs then 0 else (s.nis n).vcRoundRobin + 1
  let s := s.setNi n { s.nis n with vcRoundRobin }
  match order.find? (isCandidateVc cfg n s) with
  | none => .ok s
  | some vc => sendFlit n vc s

/-- Messages or flits are left for the next cycle. -/
def checkReschedule : Net X :=
  if (List.range cfg.virtualNetworks).any (fun vnet => ((s.nis n).inNode vnet).isReady s.now) ||
      (List.range cfg.numVcs).any (fun vc =>
        FlitBuffer.isReady ((s.nis n).outVcBuffers vc) (s.now + 1)) then
    s.schedule (.ni n) (s.now + 1)
  else s

/-- The part of `wakeup` that takes a flit from the input link. The last flit brings the
message, and every flit is answered by a credit. -/
def receiveFlit : Net X :=
  let source := cfg.linkTo (.ni n)
  match s.arrival source with
  | none => s
  | some (f, rest) =>
    let ni := s.nis n
    ((s.setChannel source
        (({ s.channels source with linkBuffer := rest }).returnCredit f.vc f.isTail s.now)).setNi n
      { ni with delivered := if f.isTail then ni.delivered ++ [f.packet]
        else ni.delivered }).schedule
      (.credit source) (s.now + 1)

def receiveCredit : Except Fault (Net X) := do
  let ch ← (s.channels (.ni n)).takeCredit cfg.maxCreditCount s.now
  .ok (s.setChannel (.ni n) ch)

def wakeup : Except Fault (Net X) := do
  let s := s.setNi n { s.nis n with lastWakeup := some s.now }
  let s ← takeMessages cfg n (List.range cfg.virtualNetworks) s
  let s ← scheduleOutputLink cfg n s
  receiveCredit cfg n (receiveFlit cfg n (checkReschedule cfg n s))

end

end Gem5.Garnet.NetworkInterface
