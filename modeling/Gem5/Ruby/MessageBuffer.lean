import Gem5.Lib.Transition

namespace Gem5.Ruby

open Lib

/-- A message in a buffer. Its payload plays no part here, so `id` stands for it. -/
structure Message where
  id : Nat
  lastEnqueueTime : Nat
  delayedTicks : Nat
  msgCounter : Nat
deriving DecidableEq, Repr

namespace Message

def fresh (id : Nat) : Message := ⟨id, 0, 0, 0⟩

/-- `b > a`: `a` is nearer to the front of the heap. -/
def before (a b : Message) : Bool :=
  if a.lastEnqueueTime = b.lastEnqueueTime then a.msgCounter < b.msgCounter
  else a.lastEnqueueTime < b.lastEnqueueTime

def updateDelayedTicks (m : Message) (curTime : Nat) : Option Message :=
  if m.lastEnqueueTime ≤ curTime then
    some { m with delayedTicks := m.delayedTicks + (curTime - m.lastEnqueueTime) }
  else none

end Message

/-- `push_heap`. The heap is kept as the list of its messages from the front on. -/
def pushHeap (m : Message) : List Message → List Message
  | [] => [m]
  | x :: xs => if m.before x then m :: x :: xs else x :: pushHeap m xs

/-- The switches of the system that `enqueue` asks for, and the value that
`random_time` gives it. -/
structure Chance where
  randomization : Bool
  warmup : Bool
  randomTime : Nat

/-- No randomization, and no warmup. -/
def Chance.none : Chance := ⟨false, false, 0⟩

structure MessageBuffer where
  prioHeap : List Message := []
  stallMsgMap : List (Nat × List Message) := []
  maxSize : Nat
  timeLastTimeEnqueue : Nat := 0
  timeLastTimePop : Nat := 0
  lastArrivalTime : Nat := 0
  sizeAtCycleStart : Nat := 0
  msgsThisCycle : Nat := 0
  notAvailCount : Nat := 0
  msgCounter : Nat := 0
  strictFifo : Bool
  randomized : Bool
deriving DecidableEq

namespace MessageBuffer

section

variable (b : MessageBuffer)
include b

/-- The size that senders see: what is taken out stays visible until the next
cycle. -/
def currentSize (currentTime : Nat) : Nat :=
  if b.timeLastTimePop < currentTime then b.prioHeap.length
  else if b.timeLastTimeEnqueue < currentTime then b.sizeAtCycleStart
  else b.sizeAtCycleStart + b.msgsThisCycle

/-- `areNSlotsAvailable`. A maximal size of zero stands for no limit, and the sum is
one of 32 bit numbers. -/
def areNSlotsAvailable (n currentTime : Nat) : Bool × MessageBuffer :=
  if b.maxSize = 0 then (true, b)
  else if (b.currentSize currentTime + n) % 2 ^ 32 ≤ b.maxSize then (true, b)
  else (false, { b with notAvailCount := b.notAvailCount + 1 })

def isReady (currentTime : Nat) : Bool :=
  match b.prioHeap with
  | [] => false
  | m :: _ => m.lastEnqueueTime ≤ currentTime

/-- The first cycle in which a message can be dequeued. -/
def arrivalTime (currentTime delta : Nat) (c : Chance) : Nat :=
  if !c.randomization || !b.randomized then currentTime + delta
  else if b.strictFifo then max b.lastArrivalTime currentTime + c.randomTime
  else currentTime + c.randomTime

/-- `enqueue`. It is `none` where the code fails an assertion or reports that the
order of a buffer is violated. -/
def enqueue (message : Message) (currentTime delta : Nat) (c : Chance) : Option MessageBuffer :=
  let arrival := b.arrivalTime currentTime delta c
  if delta = 0 ∨ arrival ≤ currentTime ∨ (b.strictFifo ∧ arrival < b.lastArrivalTime) then none
  else
    (message.updateDelayedTicks currentTime).map (fun m =>
      { b with
        msgsThisCycle := (if b.timeLastTimeEnqueue < currentTime then 0 else b.msgsThisCycle) + 1
        timeLastTimeEnqueue := max b.timeLastTimeEnqueue currentTime
        msgCounter := b.msgCounter + 1
        lastArrivalTime :=
          if !c.warmup then arrival
          else if c.randomization && b.randomized && b.strictFifo then
            max b.lastArrivalTime currentTime
          else b.lastArrivalTime
        prioHeap :=
          pushHeap { m with lastEnqueueTime := arrival, msgCounter := b.msgCounter + 1 }
            b.prioHeap })

def notePop (currentTime : Nat) : MessageBuffer :=
  if b.timeLastTimePop < currentTime then
    { b with sizeAtCycleStart := b.prioHeap.length, timeLastTimePop := currentTime }
  else b

def dequeue (currentTime : Nat) : Option (Message × MessageBuffer) :=
  match b.prioHeap with
  | [] => none
  | front :: rest =>
    (front.updateDelayedTicks currentTime).map (fun m =>
      (m, { b.notePop currentTime with prioHeap := rest }))

def recycle (currentTime recycleLatency : Nat) : Option MessageBuffer :=
  match b.prioHeap with
  | [] => none
  | node :: rest =>
    if node.lastEnqueueTime ≤ currentTime then
      let node := { node with lastEnqueueTime := currentTime + recycleLatency }
      some { b with prioHeap := pushHeap node rest }
    else none

def delayHead (currentTime delta : Nat) (c : Chance) : Option MessageBuffer :=
  match b.prioHeap with
  | [] => none
  | m :: rest => enqueue { b with prioHeap := rest } m currentTime delta c

end

/-- `m_stall_msg_map[addr].push_back(message)`, in a map sorted by address. -/
def pushStalled (addr : Nat) (m : Message) : List (Nat × List Message) → List (Nat × List Message)
  | [] => [(addr, [m])]
  | (a, ms) :: rest =>
    if addr = a then (a, ms ++ [m]) :: rest
    else if addr < a then (addr, [m]) :: (a, ms) :: rest
    else (a, ms) :: pushStalled addr m rest

def stallMessage (b : MessageBuffer) (addr currentTime : Nat) : Option MessageBuffer :=
  (b.dequeue currentTime).map (fun (m, b) =>
    { b with stallMsgMap := pushStalled addr m b.stallMsgMap })

def reanalyzeList (schdTick : Nat) : List Message → MessageBuffer → MessageBuffer
  | [], b => b
  | m :: lt, b =>
    reanalyzeList schdTick lt
      { b with
        msgCounter := b.msgCounter + 1
        prioHeap :=
          pushHeap { m with lastEnqueueTime := schdTick, msgCounter := b.msgCounter + 1 }
            b.prioHeap }

section

variable (b : MessageBuffer)
include b

def stalledOn (addr : Nat) : List Message :=
  ((b.stallMsgMap.find? (fun e => e.1 = addr)).map Prod.snd).getD []

def isStalledOn (addr : Nat) : Bool := b.stallMsgMap.any (fun e => e.1 = addr)

def reanalyzeMessages (addr currentTime : Nat) : Option MessageBuffer :=
  if b.isStalledOn addr then
    some { reanalyzeList currentTime (b.stalledOn addr) b with
           stallMsgMap := b.stallMsgMap.filter (fun e => e.1 ≠ addr) }
  else none

def allStalled : List Message := (b.stallMsgMap.map Prod.snd).flatten

def reanalyzeAllMessages (currentTime : Nat) : MessageBuffer :=
  { reanalyzeList currentTime b.allStalled b with stallMsgMap := [] }

end

inductive Op
  | enqueue (message : Message) (delta : Nat) (c : Chance)
  | dequeue
  | recycle (recycleLatency : Nat)
  | delayHead (delta : Nat) (c : Chance)
  | stallMessage (addr : Nat)
  | reanalyzeMessages (addr : Nat)
  | reanalyzeAllMessages

def Op.apply (b : MessageBuffer) (t : Nat) : Op → Option MessageBuffer
  | .enqueue message delta c => b.enqueue message t delta c
  | .dequeue => (b.dequeue t).map Prod.snd
  | .recycle recycleLatency => b.recycle t recycleLatency
  | .delayHead delta c => b.delayHead t delta c
  | .stallMessage addr => b.stallMessage addr t
  | .reanalyzeMessages addr => b.reanalyzeMessages addr t
  | .reanalyzeAllMessages => some (b.reanalyzeAllMessages t)

/-- A buffer and the time of the last call on it. -/
structure Clocked where
  buffer : MessageBuffer
  now : Nat

def machine (maxSize : Nat) (strictFifo randomized : Bool) : Machine Clocked (Nat × Op) where
  init s := s = ⟨{ maxSize, strictFifo, randomized }, 0⟩
  step s call s' := s.now ≤ call.1 ∧ s'.now = call.1 ∧ call.2.apply s.buffer call.1 = some s'.buffer

def Clocked.call (s : Clocked) (call : Nat × Op) : Option Clocked :=
  if s.now ≤ call.1 then (call.2.apply s.buffer call.1).map (⟨·, call.1⟩) else none

theorem Clocked.call_step (maxSize : Nat) (strictFifo randomized : Bool) (s : Clocked)
    (call : Nat × Op) (s' : Clocked) (h : s.call call = some s') :
    (machine maxSize strictFifo randomized).step s call s' := by
  unfold Clocked.call at h
  split_ifs at h with ht
  obtain ⟨b, hb, rfl⟩ := Option.map_eq_some_iff.mp h
  exact ⟨ht, rfl, hb⟩

end MessageBuffer

end Gem5.Ruby
