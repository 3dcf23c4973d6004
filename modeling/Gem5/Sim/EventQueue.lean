import Gem5.Lib.Heap
import Gem5.Lib.Transition

namespace Gem5.Sim

/-- `uint64_t` in the source; the queue only compares and copies ticks. -/
abbrev Tick := Nat

abbrev Priority := Int

abbrev EventPtr := Nat
abbrev QueueId := Nat

abbrev Flags := BitVec 16

namespace Flags

def isSet (flags f : Flags) : Bool := flags &&& f != 0
def noneSet (flags f : Flags) : Bool := flags &&& f == 0
def clear (flags f : Flags) : Flags := flags &&& ~~~f
def set (flags f : Flags) : Flags := flags ||| f

def PublicWrite : Flags := 0x001d
def Squashed : Flags := 0x0001
def Scheduled : Flags := 0x0002
def AutoDelete : Flags := 0x0004
def IsExitEvent : Flags := 0x0010
def IsMainQueue : Flags := 0x0020
def Initialized : Flags := 0x7a40
def InitMask : Flags := 0xffc0

end Flags

structure Event where
  nextBin : Option EventPtr
  nextInBin : Option EventPtr
  when : Tick
  priority : Priority
  flags : Flags
  queue : Option QueueId
deriving DecidableEq, Repr

namespace Event

def scheduled (e : Event) : Bool := Flags.isSet e.flags .Scheduled
def squashed (e : Event) : Bool := Flags.isSet e.flags .Squashed
def isExitEvent (e : Event) : Bool := Flags.isSet e.flags .IsExitEvent
def initialized (e : Event) : Bool := e.flags &&& .InitMask == .Initialized

def lt (l r : Event) : Bool :=
  l.when < r.when || (l.when == r.when && l.priority < r.priority)

def le (l r : Event) : Bool :=
  l.when < r.when || (l.when == r.when && l.priority ≤ r.priority)

def eq (l r : Event) : Bool := l.when == r.when && l.priority == r.priority
def ne (l r : Event) : Bool := l.when != r.when || l.priority != r.priority

def setWhen (e : Event) (when : Tick) (q : QueueId) : Event :=
  { e with when, queue := some q }

/-- The constructor, with the default null links and zero time. -/
def make (p : Priority) (f : Flags) : Event :=
  { nextBin := none, nextInBin := none, when := 0, priority := p,
    flags := .Initialized ||| f, queue := none }

end Event

abbrev Heap := Lib.Heap Event

/-- Why a call does not return: a failed assertion, a panic, the use of a null
or deleted event, a walk that visits more links than there are events, or a
checkpoint entry that cannot be read. -/
inductive Fault
  | assertion
  | notFound
  | dangling
  | diverges
  | unserialize (name : String)
deriving DecidableEq, Repr

abbrev Res := Except Fault

def check (b : Bool) : Res Unit := if b then .ok () else .error .assertion

def Heap.deref (h : Heap) (p : EventPtr) : Res Event :=
  match h.get p with
  | some e => .ok e
  | none => .error .dangling

/-- `*this` is the queue numbered `self`; `servicing` is the event whose
`process()` is running inside `serviceOne`. -/
structure State where
  heap : Heap
  head : Option EventPtr
  curTick : Tick
  self : QueueId
  servicing : Option EventPtr

namespace Event

/-- The returned event is always `event`, so only the memory is returned. -/
def insertBefore (h : Heap) (event : EventPtr) (curr : Option EventPtr) : Res Heap := do
  let e ← h.deref event
  match curr with
  | none => return h.set event { e with nextBin := none, nextInBin := none }
  | some c =>
    let ce ← h.deref c
    if lt e ce then
      return h.set event { e with nextBin := some c, nextInBin := none }
    else
      return h.set event { e with nextBin := ce.nextBin, nextInBin := some c }

/-- The search loop of `removeItem`, from `curr` with `next` after it. -/
def unlinkInBin (h : Heap) (event : EventPtr) : Nat → EventPtr → Option EventPtr → Res Heap
  | _, _, none => .error .notFound
  | 0, _, some _ => .error .diverges
  | fuel + 1, curr, some next => do
    let ne ← h.deref next
    if event = next then
      let ce ← h.deref curr
      return h.set curr { ce with nextInBin := ne.nextInBin }
    else
      unlinkInBin h event fuel next ne.nextInBin

/-- Taking the top event off its bin, in `removeItem` and `serviceOne`: the event
below takes over the link to the next bin, which could be stale in it. -/
def popTop (h : Heap) (top : Event) : Res (Heap × Option EventPtr) :=
  match top.nextInBin with
  | none => return (h, top.nextBin)
  | some next => do
    let ne ← h.deref next
    return (h.set next { ne with nextBin := top.nextBin }, some next)

def removeItem (h : Heap) (event top : EventPtr) : Res (Heap × Option EventPtr) := do
  let te ← h.deref top
  if event = top then popTop h te
  else
    let h ← unlinkInBin h event h.size top te.nextInBin
    return (h, some top)

end Event

namespace EventQueue

/-- The bin search shared by `insert` and `remove`: the last bin below the
event's, and the link that follows it. -/
def findBin (h : Heap) (e : Event) :
    Nat → EventPtr → Option EventPtr → Res (EventPtr × Option EventPtr)
  | _, prev, none => .ok (prev, none)
  | 0, _, some _ => .error .diverges
  | fuel + 1, prev, some curr => do
    let ce ← h.deref curr
    if ce.lt e then findBin h e fuel curr ce.nextBin else .ok (prev, some curr)

def setNextBin (h : Heap) (p : EventPtr) (next : Option EventPtr) : Res Heap := do
  let e ← h.deref p
  return h.set p { e with nextBin := next }

section

variable (s : State) (event : EventPtr)
include s event

def insert : Res State := do
  let e ← s.heap.deref event
  match s.head with
  | none =>
    let h ← Event.insertBefore s.heap event none
    return { s with heap := h, head := some event }
  | some head =>
    let he ← s.heap.deref head
    if e.le he then
      let h ← Event.insertBefore s.heap event (some head)
      return { s with heap := h, head := some event }
    else
      let (prev, curr) ← findBin s.heap e s.heap.size head he.nextBin
      let h ← Event.insertBefore s.heap event curr
      let h ← setNextBin h prev (some event)
      return { s with heap := h }

def remove : Res State := do
  match s.head with
  | none => .error .notFound
  | some head =>
    let e ← s.heap.deref event
    check (e.queue == some s.self)
    let he ← s.heap.deref head
    if he.eq e then
      let (h, top) ← Event.removeItem s.heap event head
      return { s with heap := h, head := top }
    else
      let (prev, curr) ← findBin s.heap e s.heap.size head he.nextBin
      match curr with
      | none => .error .notFound
      | some curr =>
        let ce ← s.heap.deref curr
        if ce.ne e then .error .notFound
        else
          let (h, top) ← Event.removeItem s.heap event curr
          let h ← setNextBin h prev top
          return { s with heap := h }

def modify (f : Event → Event) : Res State := do
  let e ← s.heap.deref event
  return { s with heap := s.heap.set event (f e) }

def delete : Res State := do
  let e ← s.heap.deref event
  check (!e.scheduled)
  return { s with heap := s.heap.free event }

/-- Serial mode, where `global` makes no difference. -/
def schedule (when : Tick) : Res State := do
  check (s.curTick ≤ when)
  let e ← s.heap.deref event
  check (!e.scheduled)
  check e.initialized
  let s ← modify s event (fun e => e.setWhen when s.self)
  let s ← insert s event
  modify s event (fun e => { e with flags := Flags.set e.flags .Scheduled })

def deschedule : Res State := do
  let e ← s.heap.deref event
  check e.scheduled
  check e.initialized
  let s ← remove s event
  let s ← modify s event
    (fun e => { e with flags := Flags.clear (Flags.clear e.flags .Squashed) .Scheduled })
  let e ← s.heap.deref event
  if Flags.isSet e.flags .AutoDelete then delete s event else return s

def reschedule (when : Tick) (always : Bool) : Res State := do
  check (s.curTick ≤ when)
  let e ← s.heap.deref event
  check (always || e.scheduled)
  check e.initialized
  let s ← if e.scheduled then remove s event else pure s
  let s ← modify s event (fun e => e.setWhen when s.self)
  let s ← insert s event
  modify s event
    (fun e => { e with flags := Flags.set (Flags.clear e.flags .Squashed) .Scheduled })

/-- The last lines of `serviceOne`: a served event that asks for it and was not
scheduled again is deleted. -/
def autoDelete : Res State := do
  let e ← s.heap.deref event
  if Flags.isSet e.flags .AutoDelete && !e.scheduled then delete s event else return s

end

/-- `serviceOne` up to the call of `process()`. A squashed event is not
processed, and the function is then already at its end. -/
def beginService (s : State) : Res State := do
  match s.head with
  | none => .error .dangling
  | some event =>
    let e ← s.heap.deref event
    let e' := { e with flags := Flags.clear e.flags .Scheduled }
    let (h, head) ← Event.popTop (s.heap.set event e') e'
    let s := { s with heap := h, head }
    if !e'.squashed then
      return { s with curTick := e.when, servicing := some event }
    else
      let s ← modify s event (fun e => { e with flags := Flags.clear e.flags .Squashed })
      autoDelete s event

/-- `serviceOne` from the return of `process()` on: an exit event is returned
to the caller. -/
def endService (s : State) : Res (State × Option EventPtr) := do
  match s.servicing with
  | none => .error .assertion
  | some event =>
    let e ← s.heap.deref event
    let s := { s with servicing := none }
    if e.isExitEvent then
      check (!Flags.isSet e.flags .AutoDelete || !Flags.isSet e.flags .IsMainQueue)
      return (s, some event)
    else
      let s ← autoDelete s event
      return (s, none)

def serviceOne (process : State → Res State) (s : State) : Res (State × Option EventPtr) := do
  let s ← beginService s
  match s.servicing with
  | none => return (s, none)
  | some _ =>
    let s ← process s
    endService s

end EventQueue

end Gem5.Sim
