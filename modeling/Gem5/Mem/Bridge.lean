import Gem5.Lib.Transition

namespace Gem5.Mem

open Lib List

/-! A bridge: requests go from its slave port to its master port, and responses the other way. In
what follows `none` is a failed assertion. -/

structure BridgePacket (α : Type) where
  body : α
  needsResponse : Bool
  cacheResponding : Bool := false
  headerDelay : Nat := 0
  payloadDelay : Nat := 0

structure BridgeDeferredPacket (α : Type) where
  pkt : BridgePacket α
  tick : Nat

/-- The packets that a port is to send, and the tick for which its send event is scheduled. -/
structure TransmitQueue (α : Type) where
  transmitList : List (BridgeDeferredPacket α) := []
  sendEvent : Option Nat := none

namespace TransmitQueue

variable {α : Type}

/-- The event must not be scheduled already, and not in the past. -/
def schedule (now when : Nat) (q : TransmitQueue α) : Option (TransmitQueue α) :=
  if q.sendEvent = none ∧ now ≤ when then some { q with sendEvent := some when } else none

/-- A packet that comes to the head needs an event. -/
def schedTiming (now : Nat) (d : BridgeDeferredPacket α) (q : TransmitQueue α) :
    Option (TransmitQueue α) := do
  let q ← if q.transmitList.isEmpty then q.schedule now d.tick else some q
  return { q with transmitList := q.transmitList ++ [d] }

/-- The packet that is sent: the head, whose tick has come. -/
def trySendTiming (now : Nat) (q : TransmitQueue α) : Option (BridgeDeferredPacket α) :=
  match q.transmitList with
  | [] => none
  | d :: _ => if d.tick ≤ now then some d else none

/-- The head has been sent: the next packet needs an event. -/
def popFront (now clockEdge : Nat) (q : TransmitQueue α) : Option (TransmitQueue α) :=
  match q.transmitList.tail with
  | [] => some { q with transmitList := [] }
  | d :: rest => { q with transmitList := d :: rest }.schedule now (max d.tick clockEdge)

end TransmitQueue

open TransmitQueue

/-- The delay is in cycles; `clockEdge now cycles` is the tick of an edge of the clock. -/
structure BridgeConfig where
  reqQueueLimit : Nat
  respQueueLimit : Nat
  delay : Nat
  clockEdge : Nat → Nat → Nat
  le_clockEdge : ∀ now cycles, now ≤ clockEdge now cycles

/-- The request queue belongs to the master port, and the rest to the slave port. -/
structure Bridge (α : Type) where
  reqQueue : TransmitQueue α := {}
  respQueue : TransmitQueue α := {}
  outstandingResponses : Nat := 0
  retryReq : Bool := false

namespace Bridge

variable {α : Type} (cfg : BridgeConfig)

def respQueueFull (b : Bridge α) : Bool := b.outstandingResponses == cfg.respQueueLimit

def reqQueueFull (b : Bridge α) : Bool := b.reqQueue.transmitList.length == cfg.reqQueueLimit

def deferred (now : Nat) (pkt : BridgePacket α) : BridgeDeferredPacket α where
  pkt := { pkt with headerDelay := 0, payloadDelay := 0 }
  tick := cfg.clockEdge now cfg.delay + (pkt.headerDelay + pkt.payloadDelay)

def schedTimingReq (now : Nat) (d : BridgeDeferredPacket α) (b : Bridge α) : Option (Bridge α) := do
  let reqQueue ← b.reqQueue.schedTiming now d
  if b.reqQueue.transmitList.length ≠ cfg.reqQueueLimit then some { b with reqQueue } else none

def schedTimingResp (now : Nat) (d : BridgeDeferredPacket α) (b : Bridge α) :
    Option (Bridge α) := do
  let respQueue ← b.respQueue.schedTiming now d
  return { b with respQueue }

def recvTimingResp (now : Nat) (pkt : BridgePacket α) (b : Bridge α) : Option (Bridge α) :=
  b.schedTimingResp now (deferred cfg now pkt)

/-- The space for the response is reserved before the request is accepted. -/
def reserve (pkt : BridgePacket α) (b : Bridge α) : Bridge α :=
  if b.reqQueueFull cfg then { b with retryReq := true }
  else if pkt.needsResponse then
    if b.respQueueFull cfg then { b with retryReq := true }
    else { b with outstandingResponses := b.outstandingResponses + 1 }
  else b

/-- Whether the request is accepted. One that comes while another is stalled is refused. -/
def recvTimingReq (now : Nat) (pkt : BridgePacket α) (b : Bridge α) : Option (Bool × Bridge α) :=
  if pkt.cacheResponding then none
  else if b.retryReq then some (false, b)
  else
    let b := b.reserve cfg pkt
    if b.retryReq then some (false, b)
    else (b.schedTimingReq cfg now (deferred cfg now pkt)).map (fun b => (true, b))

def retryStalledReq (b : Bridge α) : Bool × Bridge α := (b.retryReq, { b with retryReq := false })

def reqSent (now : Nat) (b : Bridge α) : Option (Bool × Bridge α) := do
  let reqQueue ← b.reqQueue.popFront now (cfg.clockEdge now 0)
  return retryStalledReq { b with reqQueue }

def respSent (now : Nat) (b : Bridge α) : Option (Bool × Bridge α) :=
  if b.outstandingResponses ≠ 0 then do
    let respQueue ← b.respQueue.popFront now (cfg.clockEdge now 0)
    let b := { b with respQueue, outstandingResponses := b.outstandingResponses - 1 }
    return if !b.reqQueueFull cfg && b.retryReq then (true, { b with retryReq := false })
      else (false, b)
  else none

end Bridge

/-- What is in progress when the bridge is called again: a request or a response is being sent, or
the master is being sent a retry. -/
inductive BridgeFrame (α : Type)
  | sendingReq (d : BridgeDeferredPacket α)
  | sendingResp (d : BridgeDeferredPacket α)
  | retrying

namespace BridgeFrame

variable {α : Type}

def req? : BridgeFrame α → Option (BridgeDeferredPacket α)
  | .sendingReq d => some d
  | _ => none

def resp? : BridgeFrame α → Option (BridgeDeferredPacket α)
  | .sendingResp d => some d
  | _ => none

end BridgeFrame

open BridgeFrame

/-- What has been taken over in one direction, what has been sent with the tick of the sending, and
the retries that the receiver owes. -/
structure Flow (α : Type) where
  entered : List (BridgeDeferredPacket α) := []
  left : List (BridgeDeferredPacket α × Nat) := []
  owed : Nat := 0

structure BridgeRun (α : Type) where
  bridge : Bridge α := {}
  now : Nat := 0
  frames : List (BridgeFrame α) := []
  reqs : Flow α := {}
  resps : Flow α := {}

namespace BridgeRun

variable {α : Type} (cfg : BridgeConfig)

inductive Move (α : Type)
  | recvTimingReq (pkt : BridgePacket α)
  | recvTimingResp (pkt : BridgePacket α)
  | sendReqEvent
  | sendRespEvent
  | recvReqRetry
  | recvRespRetry
  | reqReturns (accepted : Bool)
  | respReturns (accepted : Bool)
  | retryReturns
  | wait (tick : Nat)

def needResponse (l : List (BridgeDeferredPacket α)) : Nat :=
  l.countP (fun d => d.pkt.needsResponse)

section

variable (w : BridgeRun α)
include w

/-- What the two sides may do, at any time and from within the calls in progress. A response is for
a request that has been sent, and a retry is owed. Events happen when no call is in progress, and
none is missed. -/
def Enabled : Move α → Prop
  | .recvTimingReq pkt => pkt.cacheResponding = false
  | .recvTimingResp _ => w.resps.entered.length < needResponse (w.reqs.left.map Prod.fst)
  | .sendReqEvent => w.frames = [] ∧ w.bridge.reqQueue.sendEvent = some w.now
  | .sendRespEvent => w.frames = [] ∧ w.bridge.respQueue.sendEvent = some w.now
  | .recvReqRetry => 0 < w.reqs.owed
  | .recvRespRetry => 0 < w.resps.owed
  | .reqReturns _ => (w.frames.head?.bind BridgeFrame.req?).isSome
  | .respReturns _ => (w.frames.head?.bind BridgeFrame.resp?).isSome
  | .retryReturns => w.frames.head?.any (fun f => f.req?.isNone && f.resp?.isNone)
  | .wait tick => w.frames = [] ∧ w.now ≤ tick ∧ (∀ t ∈ w.bridge.reqQueue.sendEvent, tick ≤ t) ∧
      ∀ t ∈ w.bridge.respQueue.sendEvent, tick ≤ t

instance (m : Move α) : Decidable (Enabled w m) := by
  cases m <;> unfold Enabled <;> infer_instance

/-- `trySendTiming` of the master port, up to the call of `sendTimingReq`. -/
def startReq : Option (BridgeRun α) :=
  (w.bridge.reqQueue.trySendTiming w.now).map (fun d =>
    { w with frames := .sendingReq d :: w.frames })

/-- `trySendTiming` of the slave port, up to the call of `sendTimingResp`. -/
def startResp : Option (BridgeRun α) :=
  (w.bridge.respQueue.trySendTiming w.now).map (fun d =>
    { w with frames := .sendingResp d :: w.frames })

def retry : Bool × Bridge α → BridgeRun α
  | (true, bridge) => { w with bridge, frames := .retrying :: w.frames }
  | (false, bridge) => { w with bridge }

def apply : Move α → Option (BridgeRun α)
  | .recvTimingReq pkt => (w.bridge.recvTimingReq cfg w.now pkt).map (fun (accepted, bridge) =>
      { w with
        bridge
        reqs :=
          if accepted then
            { w.reqs with entered := w.reqs.entered ++ [Bridge.deferred cfg w.now pkt] }
          else w.reqs })
  | .recvTimingResp pkt => (w.bridge.recvTimingResp cfg w.now pkt).map (fun bridge =>
      { w with
        bridge
        resps.entered := w.resps.entered ++ [Bridge.deferred cfg w.now pkt] })
  | .sendReqEvent => startReq { w with bridge.reqQueue.sendEvent := none }
  | .sendRespEvent => startResp { w with bridge.respQueue.sendEvent := none }
  | .recvReqRetry => startReq { w with reqs.owed := w.reqs.owed - 1 }
  | .recvRespRetry => startResp { w with resps.owed := w.resps.owed - 1 }
  | .reqReturns accepted =>
    match w.frames with
    | .sendingReq d :: frames =>
      if accepted then
        (w.bridge.reqSent cfg w.now).map
          (retry { w with frames, reqs.left := w.reqs.left ++ [(d, w.now)] })
      else some { w with frames, reqs.owed := w.reqs.owed + 1 }
    | _ => none
  | .respReturns accepted =>
    match w.frames with
    | .sendingResp d :: frames =>
      if accepted then
        (w.bridge.respSent cfg w.now).map
          (retry { w with frames, resps.left := w.resps.left ++ [(d, w.now)] })
      else some { w with frames, resps.owed := w.resps.owed + 1 }
    | _ => none
  | .retryReturns => some { w with frames := w.frames.tail }
  | .wait tick => some { w with now := tick }

end

def machine : Machine (BridgeRun α) (Move α) where
  init w := w = {}
  step w m w' := Enabled w m ∧ apply cfg w m = some w'

end BridgeRun

/-! One direction of the bridge. -/

/-- A queue with the retries that the receiver owes and the packet that is being sent: it is empty,
or there is an event for its head, or the receiver owes a retry, or the head is being sent. -/
inductive QueuePhase {α : Type} (now : Nat) :
    TransmitQueue α → Nat → List (BridgeDeferredPacket α) → Prop
  | empty : QueuePhase now ⟨[], none⟩ 0 []
  | pending {d : BridgeDeferredPacket α} {rest : List (BridgeDeferredPacket α)} {t : Nat}
      (ready : d.tick ≤ t) (le : now ≤ t) : QueuePhase now ⟨d :: rest, some t⟩ 0 []
  | waiting {d : BridgeDeferredPacket α} {rest : List (BridgeDeferredPacket α)}
      (ready : d.tick ≤ now) : QueuePhase now ⟨d :: rest, none⟩ 1 []
  | sending {d : BridgeDeferredPacket α} {rest : List (BridgeDeferredPacket α)}
      (ready : d.tick ≤ now) : QueuePhase now ⟨d :: rest, none⟩ 0 [d]

/-- The queue has what has been taken over and not been sent, in order, and nothing has been sent
before its tick. -/
structure Conveys {α : Type} (now : Nat) (q : TransmitQueue α) (f : Flow α)
    (busy : List (BridgeDeferredPacket α)) : Prop where
  phase : QueuePhase now q f.owed busy
  kept : f.left.map Prod.fst ++ q.transmitList = f.entered
  ready : ∀ e ∈ f.left, e.1.tick ≤ e.2

namespace Conveys

variable {α : Type} {now : Nat} {q : TransmitQueue α} {f : Flow α}
  {busy : List (BridgeDeferredPacket α)}

theorem sched (h : Conveys now q f busy) (hd : now ≤ d.tick) :
    ∃ q', q.schedTiming now d = some q' ∧ q'.transmitList = q.transmitList ++ [d] ∧
      Conveys now q' { f with entered := f.entered ++ [d] } busy := by
  obtain ⟨entered, left, owed⟩ := f
  obtain ⟨hphase, hkept, hready⟩ := h
  dsimp only at *
  refine ⟨⟨q.transmitList ++ [d], if q.transmitList.isEmpty then some d.tick else q.sendEvent⟩,
    ?_, rfl, ?_, by simp [← hkept], hready⟩
  · cases hphase <;> simp [schedTiming, schedule, hd]
  · cases hphase with
    | empty => exact .pending (le_rfl) hd
    | pending ready le => exact .pending ready le
    | waiting ready => exact .waiting ready
    | sending ready => exact .sending ready

theorem fire (h : Conveys now q f busy) (hevent : q.sendEvent = some now) :
    ∃ d, ({ q with sendEvent := none } : TransmitQueue α).trySendTiming now = some d ∧ busy = [] ∧
      Conveys now { q with sendEvent := none } f [d] := by
  obtain ⟨entered, left, owed⟩ := f
  obtain ⟨hphase, hkept, hready⟩ := h
  cases hphase with
  | empty => cases hevent
  | @pending d rest t ready le =>
    obtain rfl : t = now := Option.some.inj hevent
    exact ⟨d, by simp [trySendTiming, ready], rfl, .sending ready, hkept, hready⟩
  | waiting ready => cases hevent
  | sending ready => cases hevent

/-- The receiver sends its retry, and the head is sent once more. -/
theorem again (h : Conveys now q f busy) (howed : 0 < f.owed) :
    ∃ d, q.trySendTiming now = some d ∧ busy = [] ∧
      Conveys now q { f with owed := f.owed - 1 } [d] := by
  obtain ⟨entered, left, owed⟩ := f
  obtain ⟨hphase, hkept, hready⟩ := h
  cases hphase with
  | empty => cases howed
  | pending ready le => cases howed
  | @waiting d rest ready =>
    exact ⟨d, by simp [trySendTiming, ready], rfl, .sending ready, hkept, hready⟩
  | sending ready => cases howed

theorem sent (h : Conveys now q f [d]) {clockEdge : Nat} (hedge : now ≤ clockEdge) :
    ∃ q', q.popFront now clockEdge = some q' ∧ q.transmitList = d :: q'.transmitList ∧
      Conveys now q' { f with left := f.left ++ [(d, now)] } [] := by
  obtain ⟨entered, left, owed⟩ := f
  obtain ⟨hphase, hkept, hready⟩ := h
  dsimp only at *
  cases hphase with
  | @sending _ rest ready =>
    have hleft : ∀ e ∈ left ++ [(d, now)], e.1.tick ≤ e.2 := by
      intro e he
      rcases mem_append.mp he with he | he
      · exact hready e he
      · rw [mem_singleton.mp he]
        exact ready
    cases rest with
    | nil =>
      refine ⟨⟨[], none⟩, by simp [popFront], rfl, ?_, by simp [← hkept], hleft⟩
      exact .empty
    | cons next rest =>
      have hle : now ≤ max next.tick clockEdge := hedge.trans (le_max_right _ _)
      refine ⟨⟨next :: rest, some (max next.tick clockEdge)⟩, ?_, rfl, ?_, by simp [← hkept], hleft⟩
      · simp [popFront, schedule, hle]
      · exact .pending (le_max_left _ _) hle

theorem alone (h : Conveys now q f (d :: busy)) : busy = [] := by
  have hphase := h.phase
  generalize f.owed = owed at hphase
  cases hphase
  rfl

theorem rejected (h : Conveys now q f [d]) : Conveys now q { f with owed := f.owed + 1 } [] := by
  obtain ⟨entered, left, owed⟩ := f
  obtain ⟨hphase, hkept, hready⟩ := h
  refine ⟨?_, hkept, hready⟩
  cases hphase with
  | sending ready => exact .waiting ready

theorem wait (h : Conveys now q f []) {tick : Nat} (hle : now ≤ tick)
    (hevent : ∀ t ∈ q.sendEvent, tick ≤ t) : Conveys tick q f [] := by
  obtain ⟨entered, left, owed⟩ := f
  obtain ⟨hphase, hkept, hready⟩ := h
  refine ⟨?_, hkept, hready⟩
  cases hphase with
  | empty => exact .empty
  | pending ready le => exact .pending ready (hevent _ rfl)
  | waiting ready => exact .waiting (ready.trans hle)

end Conveys

namespace BridgeRun

variable {α : Type}

/-- Both directions, and the reservations of space for the responses. -/
structure Controlled (cfg : BridgeConfig) (w : BridgeRun α) : Prop where
  reqs : Conveys w.now w.bridge.reqQueue w.reqs (w.frames.filterMap BridgeFrame.req?)
  resps : Conveys w.now w.bridge.respQueue w.resps (w.frames.filterMap BridgeFrame.resp?)
  reserved : w.bridge.outstandingResponses + w.resps.left.length = needResponse w.reqs.entered
  answered : w.resps.entered.length ≤ needResponse (w.reqs.left.map Prod.fst)
  respBound : w.bridge.outstandingResponses ≤ cfg.respQueueLimit
  reqBound : w.bridge.reqQueue.transmitList.length ≤ cfg.reqQueueLimit
  stalled : 0 < cfg.reqQueueLimit → 0 < cfg.respQueueLimit → w.bridge.retryReq = true →
    w.bridge.reqQueue.transmitList ≠ [] ∨ 0 < w.bridge.outstandingResponses

theorem needResponse_append (l m : List (BridgeDeferredPacket α)) :
    needResponse (l ++ m) = needResponse l + needResponse m := countP_append

variable {cfg : BridgeConfig} {w : BridgeRun α}

theorem le_deferred (cfg : BridgeConfig) (now : Nat) (pkt : BridgePacket α) :
    now ≤ (Bridge.deferred cfg now pkt).tick :=
  (cfg.le_clockEdge now cfg.delay).trans (Nat.le_add_right _ _)

section

variable (h : Controlled cfg w)
include h

/-- A request is accepted, and `outstanding` counts it if it needs a response. -/
theorem Controlled.accept (pkt : BridgePacket α)
    (hroom : w.bridge.reqQueue.transmitList.length ≠ cfg.reqQueueLimit)
    (hcount : outstanding = w.bridge.outstandingResponses + if pkt.needsResponse then 1 else 0)
    (hbound : outstanding ≤ cfg.respQueueLimit) (hretry : w.bridge.retryReq = false) :
    ∃ bridge, ({ w.bridge with outstandingResponses := outstanding } : Bridge α).schedTimingReq cfg
        w.now (Bridge.deferred cfg w.now pkt) = some bridge ∧
      Controlled cfg
        { w with
          bridge
          reqs.entered := w.reqs.entered ++ [Bridge.deferred cfg w.now pkt] } := by
  obtain ⟨reqQueue, hsched, hlist, hreqs⟩ := h.reqs.sched (le_deferred cfg w.now pkt)
  refine ⟨{ w.bridge with reqQueue, outstandingResponses := outstanding }, ?_, hreqs, h.resps, ?_,
    h.answered, hbound, ?_, fun _ _ hstalled => ?_⟩
  · simp [Bridge.schedTimingReq, hsched, hroom]
  · have hreserved := h.reserved
    have hone : needResponse [Bridge.deferred cfg w.now pkt] =
        if pkt.needsResponse then 1 else 0 := by
      simp [needResponse, Bridge.deferred, countP_singleton]
    dsimp only
    rw [needResponse_append, hone]
    omega
  · have hle := h.reqBound
    simp only [hlist, length_append, length_singleton]
    omega
  · rw [hretry] at hstalled
    cases hstalled

/-- A request is taken over or stalled. -/
theorem Controlled.recvTimingReq (hen : Enabled w (.recvTimingReq pkt)) :
    ∃ w', apply cfg w (.recvTimingReq pkt) = some w' ∧ Controlled cfg w' := by
  have hen : pkt.cacheResponding = false := hen
  -- the request is stalled
  have hstall : (0 < cfg.reqQueueLimit → 0 < cfg.respQueueLimit →
      w.bridge.reqQueue.transmitList ≠ [] ∨ 0 < w.bridge.outstandingResponses) →
      Controlled cfg { w with bridge.retryReq := true } := fun hwhy =>
    { h with stalled := fun hreq hresp _ => hwhy hreq hresp }
  by_cases hretry : w.bridge.retryReq = true
  · exact ⟨w, by simp [apply, Bridge.recvTimingReq, hen, hretry], h⟩
  have hretry : w.bridge.retryReq = false := eq_false_of_ne_true hretry
  by_cases hreq : w.bridge.reqQueue.transmitList.length = cfg.reqQueueLimit
  · refine ⟨{ w with bridge.retryReq := true }, ?_, hstall (fun hpos _ => .inl (fun hnil => ?_))⟩
    · simp [apply, Bridge.recvTimingReq, Bridge.reserve, Bridge.reqQueueFull, hen, hretry, hreq]
    · rw [hnil] at hreq
      exact hpos.ne hreq
  by_cases hneeds : pkt.needsResponse = true
  · by_cases hresp : w.bridge.outstandingResponses = cfg.respQueueLimit
    · refine ⟨{ w with bridge.retryReq := true }, ?_, hstall (fun _ hpos => .inr (hresp ▸ hpos))⟩
      simp [apply, Bridge.recvTimingReq, Bridge.reserve, Bridge.reqQueueFull, Bridge.respQueueFull,
        hen, hretry, hreq, hneeds, hresp]
    have hle := h.respBound
    obtain ⟨bridge, hbridge, hcontrolled⟩ := h.accept pkt hreq rfl
      (by simp only [hneeds, if_true]; omega) hretry
    simp only [hneeds, if_true, hretry] at hbridge
    refine ⟨_, ?_, hcontrolled⟩
    simp [apply, Bridge.recvTimingReq, Bridge.reserve, Bridge.reqQueueFull, Bridge.respQueueFull,
      hen, hretry, hreq, hneeds, hresp, hbridge]
  · have hneeds : pkt.needsResponse = false := eq_false_of_ne_true hneeds
    obtain ⟨bridge, hbridge, hcontrolled⟩ := h.accept pkt hreq rfl
      (by simpa [hneeds] using h.respBound) hretry
    simp only [hneeds, Bool.false_eq_true, if_false, add_zero] at hbridge
    refine ⟨_, ?_, hcontrolled⟩
    simp [apply, Bridge.recvTimingReq, Bridge.reserve, Bridge.reqQueueFull, hen, hretry, hreq,
      hneeds, hbridge]

theorem Controlled.recvTimingResp (hen : Enabled w (.recvTimingResp pkt)) :
    ∃ w', apply cfg w (.recvTimingResp pkt) = some w' ∧ Controlled cfg w' := by
  obtain ⟨respQueue, hsched, -, hresps⟩ := h.resps.sched (le_deferred cfg w.now pkt)
  have hanswered : w.resps.entered.length + 1 ≤ needResponse (w.reqs.left.map Prod.fst) := hen
  refine ⟨{ w with
      bridge.respQueue := respQueue
      resps.entered := w.resps.entered ++ [Bridge.deferred cfg w.now pkt] }, ?_,
    { h with resps := hresps, answered := ?_ }⟩
  · simp [apply, Bridge.recvTimingResp, Bridge.schedTimingResp, hsched]
  · simpa using hanswered

theorem Controlled.sendReqEvent (hen : Enabled w .sendReqEvent) :
    ∃ w', apply cfg w .sendReqEvent = some w' ∧ Controlled cfg w' := by
  obtain ⟨d, hd, hbusy, hreqs⟩ := h.reqs.fire hen.2
  refine ⟨{ w with bridge.reqQueue.sendEvent := none, frames := .sendingReq d :: w.frames }, ?_,
    { h with reqs := ?_, resps := h.resps }⟩
  · simp [apply, startReq, hd]
  · simpa [req?, hbusy] using hreqs

theorem Controlled.sendRespEvent (hen : Enabled w .sendRespEvent) :
    ∃ w', apply cfg w .sendRespEvent = some w' ∧ Controlled cfg w' := by
  obtain ⟨d, hd, hbusy, hresps⟩ := h.resps.fire hen.2
  refine ⟨{ w with bridge.respQueue.sendEvent := none, frames := .sendingResp d :: w.frames }, ?_,
    { h with reqs := h.reqs, resps := ?_ }⟩
  · simp [apply, startResp, hd]
  · simpa [resp?, hbusy] using hresps

theorem Controlled.recvReqRetry (hen : Enabled w .recvReqRetry) :
    ∃ w', apply cfg w .recvReqRetry = some w' ∧ Controlled cfg w' := by
  obtain ⟨d, hd, hbusy, hreqs⟩ := h.reqs.again hen
  refine ⟨{ w with reqs.owed := w.reqs.owed - 1, frames := .sendingReq d :: w.frames }, ?_,
    { h with reqs := ?_, resps := h.resps }⟩
  · simp [apply, startReq, hd]
  · simpa [req?, hbusy] using hreqs

theorem Controlled.recvRespRetry (hen : Enabled w .recvRespRetry) :
    ∃ w', apply cfg w .recvRespRetry = some w' ∧ Controlled cfg w' := by
  obtain ⟨d, hd, hbusy, hresps⟩ := h.resps.again hen
  refine ⟨{ w with resps.owed := w.resps.owed - 1, frames := .sendingResp d :: w.frames }, ?_,
    { h with reqs := h.reqs, resps := ?_ }⟩
  · simp [apply, startResp, hd]
  · simpa [resp?, hbusy] using hresps

/-- A request is sent, and one that was stalled is told to retry; or it is rejected. -/
theorem Controlled.reqReturns {accepted : Bool} (hen : Enabled w (.reqReturns accepted)) :
    ∃ w', apply cfg w (.reqReturns accepted) = some w' ∧ Controlled cfg w' := by
  obtain ⟨d, frames, hframes⟩ : ∃ d frames, w.frames = .sendingReq d :: frames := by
    have hen : (w.frames.head?.bind req?).isSome := hen
    rcases hf : w.frames with _ | ⟨_ | _ | _, frames⟩ <;> simp [hf, req?] at hen ⊢
  obtain ⟨⟨reqQueue, respQueue, outstanding, retryReq⟩, now, _, reqs, resps⟩ := w
  subst hframes
  have hreqs := h.reqs
  have hresps := h.resps
  have hone : frames.filterMap req? = [] := hreqs.alone
  simp only [filterMap_cons, req?, resp?, hone] at hreqs hresps
  cases accepted with
  | false =>
    refine ⟨{ bridge := ⟨reqQueue, respQueue, outstanding, retryReq⟩
              now, frames, resps, reqs := { reqs with owed := reqs.owed + 1 } }, rfl,
      { h with reqs := ?_, resps := hresps }⟩
    simpa [hone] using hreqs.rejected
  | true =>
    obtain ⟨q, hpop, hlist, hsent⟩ := hreqs.sent (cfg.le_clockEdge now 0)
    refine ⟨{ bridge := ⟨q, respQueue, outstanding, false⟩
              now, resps
              frames := if retryReq then .retrying :: frames else frames
              reqs := { reqs with left := reqs.left ++ [(d, now)] } }, ?_,
      { h with reqs := ?_, resps := ?_, answered := ?_, reqBound := ?_, stalled := nofun }⟩
    · cases retryReq <;> simp [apply, Bridge.reqSent, hpop, retry, Bridge.retryStalledReq]
    · cases retryReq <;> simpa [filterMap_cons, req?, hone] using hsent
    · cases retryReq <;> simpa [filterMap_cons, resp?] using hresps
    · refine h.answered.trans ?_
      simp [needResponse]
    · have hbound := h.reqBound
      simp only [hlist, length_cons] at hbound ⊢
      omega

/-- A response is sent and its space given back; or it is rejected. -/
theorem Controlled.respReturns {accepted : Bool} (hen : Enabled w (.respReturns accepted)) :
    ∃ w', apply cfg w (.respReturns accepted) = some w' ∧ Controlled cfg w' := by
  obtain ⟨d, frames, hframes⟩ : ∃ d frames, w.frames = .sendingResp d :: frames := by
    have hen : (w.frames.head?.bind resp?).isSome := hen
    rcases hf : w.frames with _ | ⟨_ | _ | _, frames⟩ <;> simp [hf, resp?] at hen ⊢
  obtain ⟨⟨reqQueue, respQueue, outstanding, retryReq⟩, now, _, reqs, resps⟩ := w
  subst hframes
  have hreqs := h.reqs
  have hresps := h.resps
  have hone : frames.filterMap resp? = [] := hresps.alone
  simp only [filterMap_cons, req?, resp?, hone] at hreqs hresps
  cases accepted with
  | false =>
    refine ⟨{ bridge := ⟨reqQueue, respQueue, outstanding, retryReq⟩
              now, frames, reqs, resps := { resps with owed := resps.owed + 1 } }, rfl,
      { h with reqs := hreqs, resps := ?_ }⟩
    simpa [hone] using hresps.rejected
  | true =>
    obtain ⟨q, hpop, hlist, hsent⟩ := hresps.sent (cfg.le_clockEdge now 0)
    -- the response that is sent has its space reserved
    have hpos : outstanding ≠ 0 := by
      have hreserved := h.reserved
      have hanswered := h.answered
      have hkept := congrArg List.length hresps.kept
      have hall := congrArg needResponse hreqs.kept
      rw [needResponse_append] at hall
      simp only [hlist, length_append, length_map, length_cons] at hkept
      dsimp only at *
      omega
    refine ⟨{ bridge := ⟨reqQueue, q, outstanding - 1,
                retryReq && reqQueue.transmitList.length == cfg.reqQueueLimit⟩
              now, reqs
              frames := if retryReq && reqQueue.transmitList.length != cfg.reqQueueLimit then
                .retrying :: frames else frames
              resps := { resps with left := resps.left ++ [(d, now)] } }, ?_,
      { h with reqs := ?_, resps := ?_, reserved := ?_, respBound := ?_, stalled := ?_ }⟩
    · by_cases hfull : reqQueue.transmitList.length = cfg.reqQueueLimit <;> cases retryReq <;>
        simp [apply, Bridge.respSent, hpop, retry, hpos, hfull, Bridge.reqQueueFull]
    · split <;> simpa [filterMap_cons, req?] using hreqs
    · split <;> simpa [filterMap_cons, resp?, hone] using hsent
    · have hreserved := h.reserved
      simp only [length_append, length_singleton] at hreserved ⊢
      omega
    · exact (Nat.sub_le _ _).trans h.respBound
    · intro hreq _ hstall
      refine .inl (fun hnil => ?_)
      have hnil : reqQueue.transmitList = [] := hnil
      simp only [hnil, Bool.and_eq_true, beq_iff_eq, length_nil] at hstall
      exact hreq.ne hstall.2

theorem Controlled.retryReturns (hen : Enabled w .retryReturns) :
    Controlled cfg { w with frames := w.frames.tail } := by
  obtain ⟨frames, hframes⟩ : ∃ frames, w.frames = .retrying :: frames := by
    have hen : w.frames.head?.any (fun f => f.req?.isNone && f.resp?.isNone) := hen
    rcases hf : w.frames with _ | ⟨_ | _ | _, frames⟩ <;>
      simp [hf, req?, resp?] at hen ⊢
  refine { h with reqs := ?_, resps := ?_ }
  · simpa [hframes, filterMap_cons, req?] using h.reqs
  · simpa [hframes, filterMap_cons, resp?] using h.resps

theorem Controlled.wait {tick : Nat} (hen : Enabled w (.wait tick)) :
    Controlled cfg { w with now := tick } := by
  obtain ⟨hframes, hle, hreq, hresp⟩ := hen
  have hreqs := h.reqs
  have hresps := h.resps
  rw [hframes] at hreqs hresps
  refine { h with reqs := ?_, resps := ?_ }
  · simpa [hframes] using hreqs.wait hle hreq
  · simpa [hframes] using hresps.wait hle hresp

theorem Controlled.step (hen : Enabled w m) :
    ∃ w', apply cfg w m = some w' ∧ Controlled cfg w' := by
  cases m with
  | recvTimingReq pkt => exact h.recvTimingReq hen
  | recvTimingResp pkt => exact h.recvTimingResp hen
  | sendReqEvent => exact h.sendReqEvent hen
  | sendRespEvent => exact h.sendRespEvent hen
  | recvReqRetry => exact h.recvReqRetry hen
  | recvRespRetry => exact h.recvRespRetry hen
  | reqReturns accepted => exact h.reqReturns hen
  | respReturns accepted => exact h.respReturns hen
  | retryReturns => exact ⟨_, rfl, h.retryReturns hen⟩
  | wait tick => exact ⟨_, rfl, h.wait hen⟩

end

theorem controlled_initial : Controlled cfg ({} : BridgeRun α) where
  reqs := ⟨.empty, rfl, nofun⟩
  resps := ⟨.empty, rfl, nofun⟩
  reserved := rfl
  answered := le_rfl
  respBound := Nat.zero_le _
  reqBound := Nat.zero_le _
  stalled := nofun

/-- All that has been taken over is sent once, in order and not before its tick: what has not been
sent yet is in the queue, and then the send event is scheduled, the receiver owes a retry, or the
head is being sent. -/
def Forwards (q : TransmitQueue α) (f : Flow α) (busy : List (BridgeDeferredPacket α)) : Prop :=
  f.left.map Prod.fst ++ q.transmitList = f.entered ∧ (∀ e ∈ f.left, e.1.tick ≤ e.2) ∧
  (q.transmitList ≠ [] → q.sendEvent.isSome ∨ 0 < f.owed ∨ busy ≠ [])

theorem forwards_of_conveys {now : Nat} (h : Conveys now q f busy) : Forwards q f busy := by
  refine ⟨h.kept, h.ready, fun hne => ?_⟩
  have hphase := h.phase
  generalize f.owed = owed at *
  cases hphase with
  | empty => exact absurd rfl hne
  | pending ready le => exact .inl rfl
  | waiting ready => exact .inr (.inl Nat.one_pos)
  | sending ready => exact .inr (.inr (cons_ne_nil _ _))

/-- The bridge forwards requests and responses, and reserves the space for the responses; no
assertion fails. If its queues have room at all, a request that is stalled has another one, or a
response, to wait for. -/
theorem bridge_flow_controlled (hw : (machine cfg).Reachable w) :
    Forwards w.bridge.reqQueue w.reqs (w.frames.filterMap BridgeFrame.req?) ∧
    Forwards w.bridge.respQueue w.resps (w.frames.filterMap BridgeFrame.resp?) ∧
    w.bridge.outstandingResponses + w.resps.left.length = needResponse w.reqs.entered ∧
    w.bridge.outstandingResponses ≤ cfg.respQueueLimit ∧
    w.bridge.reqQueue.transmitList.length ≤ cfg.reqQueueLimit ∧
    (∀ m, Enabled w m → (apply cfg w m).isSome) ∧
    (0 < cfg.reqQueueLimit → 0 < cfg.respQueueLimit → w.bridge.retryReq = true →
      w.bridge.reqQueue.transmitList ≠ [] ∨ 0 < w.bridge.outstandingResponses) := by
  have h : Controlled cfg w := by
    refine hw.invariant (I := Controlled cfg) (fun w h0 => ?_) (fun w m w' h hstep => ?_)
    · rw [show w = {} from h0]
      exact controlled_initial
    · obtain ⟨v, hv, hnext⟩ := h.step hstep.1
      rw [Option.some.inj (hstep.2.symm.trans hv)]
      exact hnext
  refine ⟨forwards_of_conveys h.reqs, forwards_of_conveys h.resps, h.reserved, h.respBound,
    h.reqBound, fun m hen => ?_, h.stalled⟩
  obtain ⟨v, hv, -⟩ := h.step hen
  exact Option.isSome_iff_exists.mpr ⟨v, hv⟩

/-- The next state, if the two sides may do the move. -/
def move (cfg : BridgeConfig) (w : BridgeRun α) (m : Move α) : Option (BridgeRun α) :=
  if Enabled w m then apply cfg w m else none

theorem step_of_move (cfg : BridgeConfig) (w : BridgeRun α) (m : Move α) (w' : BridgeRun α)
    (h : move cfg w m = some w') : (machine cfg).step w m w' :=
  Option.ite_none_right_eq_some.mp h

def smallBridge (reqQueueLimit respQueueLimit : Nat) : BridgeConfig where
  reqQueueLimit
  respQueueLimit
  delay := 2
  clockEdge := fun now cycles => now + cycles
  le_clockEdge := fun _ _ => Nat.le_add_right _ _

def read (body : Nat) : BridgePacket Nat where
  body
  needsResponse := true

/-- A request is rejected once and then sent; the one that it has stalled is retried from within,
and is stalled again until the response has been sent. -/
theorem bridge_flow_controlled_stalled :
    ∃ w : BridgeRun Nat, (machine (smallBridge 1 1)).Reachable w ∧ w.bridge.retryReq = true ∧
      w.reqs.left.map Prod.snd = [3] ∧
      (w.bridge.reqQueue.transmitList ≠ [] ∨ 0 < w.bridge.outstandingResponses) := by
  obtain ⟨w, hw, hretry, hleft⟩ := Machine.exists_run (step_of_move (smallBridge 1 1))
    (.start rfl) [.recvTimingReq (read 1), .recvTimingReq (read 2), .wait 2, .sendReqEvent,
      .reqReturns false, .wait 3, .recvReqRetry, .reqReturns true, .recvTimingReq (read 2),
      .retryReturns, .recvTimingResp (read 1), .wait 5, .sendRespEvent]
    (P := fun w => w.bridge.retryReq = true ∧ w.reqs.left.map Prod.snd = [3]) (by decide)
  obtain ⟨-, -, -, -, -, -, hstalled⟩ := bridge_flow_controlled hw
  exact ⟨w, hw, hretry, hleft, hstalled (by decide) (by decide) hretry⟩

/-- With no room for requests, or none for responses, the first request is stalled and has nothing
to wait for. -/
theorem stalled_without_room :
    (∃ w : BridgeRun Nat, (machine (smallBridge 0 1)).Reachable w ∧ w.bridge.retryReq = true ∧
      w.bridge.reqQueue.transmitList.length = 0 ∧ w.bridge.outstandingResponses = 0) ∧
    (∃ w : BridgeRun Nat, (machine (smallBridge 1 0)).Reachable w ∧ w.bridge.retryReq = true ∧
      w.bridge.reqQueue.transmitList.length = 0 ∧ w.bridge.outstandingResponses = 0) := by
  constructor
  · exact Machine.exists_run (step_of_move (smallBridge 0 1)) (.start rfl)
      [.recvTimingReq (read 1)] (by decide)
  · exact Machine.exists_run (step_of_move (smallBridge 1 0)) (.start rfl)
      [.recvTimingReq (read 1)] (by decide)

end BridgeRun

end Gem5.Mem
