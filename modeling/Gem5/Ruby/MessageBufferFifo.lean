import Gem5.Ruby.MessageBufferOrder

namespace Gem5.Ruby.MessageBuffer

open Lib List Option

/-! Ordered buffers: what comes out against what went in. -/

def clearStats (b : MessageBuffer) : MessageBuffer := { b with notAvailCount := 0, msgCounter := 0 }

inductive FifoOp
  | enqueue (message : Message) (delta : Nat) (c : Chance)
  | dequeue
  | clearStats

/-- A buffer with the time of the last call, and the messages that have been put in and taken
out. -/
structure Fifo where
  buffer : MessageBuffer
  now : Nat := 0
  enqueued : List Nat := []
  dequeued : List Nat := []

namespace Fifo

def call (s : Fifo) : Nat × FifoOp → Option Fifo
  | (t, .enqueue message delta c) =>
    if s.now ≤ t then
      (s.buffer.enqueue message t delta c).map (fun b =>
        { s with buffer := b, now := t, enqueued := s.enqueued ++ [message.id] })
    else none
  | (t, .dequeue) =>
    if s.now ≤ t then
      (s.buffer.dequeue t).map (fun (m, b) =>
        { s with buffer := b, now := t, dequeued := s.dequeued ++ [m.id] })
    else none
  | (t, .clearStats) =>
    if s.now ≤ t then some { s with buffer := s.buffer.clearStats, now := t } else none

/-- Calls on a buffer that is made with `ordered` set, at times that do not decrease. A call that
panics is no step. -/
def machine (maxSize : Nat) (randomized : Bool) : Machine Fifo (Nat × FifoOp) where
  init s := s = { buffer := { maxSize, strictFifo := true, randomized } }
  step s call s' := s.call call = some s'

/-- No message goes in that is due before one that is there already, and the numbers of messages
start again only when none is there. -/
def InOrder (s : Fifo) : Nat × FifoOp → Prop
  | (t, .enqueue _ delta c) => ∀ x ∈ s.buffer.prioHeap,
    x.lastEnqueueTime ≤ s.buffer.arrivalTime t delta c
  | (_, .dequeue) => True
  | (_, .clearStats) => s.buffer.prioHeap = []

/-- There is no warmup, and the numbers of messages start again only when none is there. -/
def NoWarmup (s : Fifo) : Nat × FifoOp → Prop
  | (_, .enqueue _ _ c) => c.warmup = false
  | (_, .dequeue) => True
  | (_, .clearStats) => s.buffer.prioHeap = []

/-- The heap is a queue of what is still to come out. -/
structure Inv (s : Fifo) : Prop where
  numbers : ∀ x ∈ s.buffer.prioHeap, x.msgCounter ≤ s.buffer.msgCounter
  order : s.enqueued = s.dequeued ++ s.buffer.prioHeap.map Message.id

theorem pushHeap_of_not_before (h : ∀ x ∈ heap, m.before x = false) :
    pushHeap m heap = heap ++ [m] := by
  induction heap with
  | nil => rfl
  | cons x heap ih =>
    rw [pushHeap, h x mem_cons_self, if_neg Bool.false_ne_true,
      ih (fun y hy => h y (.tail _ hy)), cons_append]

variable {b b' : MessageBuffer}

theorem enqueue_eq_some {m : Message} {t delta : Nat} {c : Chance}
    (h : b.enqueue m t delta c = some b') : ∃ m', m'.id = m.id ∧
      m'.lastEnqueueTime = b.arrivalTime t delta c ∧ m'.msgCounter = b.msgCounter + 1 ∧
      b'.prioHeap = pushHeap m' b.prioHeap ∧ b'.msgCounter = b.msgCounter + 1 ∧
      b'.strictFifo = b.strictFifo ∧ (b.strictFifo = true →
        b.lastArrivalTime ≤ m'.lastEnqueueTime) ∧
      (c.warmup = false → b'.lastArrivalTime = m'.lastEnqueueTime) := by
  unfold enqueue at h
  dsimp only at h
  split at h
  · cases h
  rename_i hok
  obtain ⟨m', hm', rfl⟩ := map_eq_some_iff.mp h
  have hid : m'.id = m.id := by
    unfold Message.updateDelayedTicks at hm'
    split at hm'
    · rw [← some.inj hm']
    · cases hm'
  refine ⟨{ m' with
      lastEnqueueTime := b.arrivalTime t delta c
      msgCounter := b.msgCounter + 1 }, hid, rfl, rfl, rfl, rfl, rfl, fun hstrict => ?_,
    fun hwarmup => by simp [hwarmup]⟩
  simp only [not_or, not_and, not_lt] at hok
  exact hok.2.2 hstrict

theorem dequeue_eq_some {m : Message} {t : Nat}
    (h : b.dequeue t = some (m, b')) : ∃ front, m.id = front.id ∧
      b.prioHeap = front :: b'.prioHeap ∧
      b'.msgCounter = b.msgCounter ∧ b'.strictFifo = b.strictFifo ∧
      b'.lastArrivalTime = b.lastArrivalTime := by
  unfold dequeue at h
  split at h
  · cases h
  rename_i front rest hheap
  obtain ⟨m', hm', heq⟩ := map_eq_some_iff.mp h
  cases heq
  have hid : m.id = front.id := by
    unfold Message.updateDelayedTicks at hm'
    split at hm'
    · rw [← some.inj hm']
    · cases hm'
  refine ⟨front, hid, hheap, ?_, ?_, ?_⟩ <;> (unfold notePop; split <;> rfl)

variable {call : Nat × FifoOp} {s s' : Fifo}

theorem Inv.step (h : Inv s) (hcall : s.call call = some s')
    (horder : s.InOrder call) : Inv s' := by
  obtain ⟨t, op⟩ := call
  cases op with
  | enqueue message delta c =>
    simp only [Fifo.call] at hcall
    split_ifs at hcall
    obtain ⟨b, hb, rfl⟩ := map_eq_some_iff.mp hcall
    obtain ⟨m, hid, htime, hnumber, hheap, hcounter, -⟩ := enqueue_eq_some hb
    have hlast : ∀ x ∈ s.buffer.prioHeap, m.before x = false := by
      intro x hx
      have hle := horder x hx
      have hnum := h.numbers x hx
      rw [before_eq_false, htime, hnumber]
      omega
    rw [pushHeap_of_not_before hlast] at hheap
    refine ⟨fun x hx => ?_, ?_⟩
    · dsimp only at hx ⊢
      rw [hheap] at hx
      rw [hcounter]
      rcases mem_append.mp hx with hx | hx
      · exact (h.numbers x hx).trans (Nat.le_succ _)
      · rw [mem_singleton.mp hx, hnumber]
    · simp [hheap, h.order, hid]
  | dequeue =>
    simp only [Fifo.call] at hcall
    split_ifs at hcall
    obtain ⟨⟨m, b⟩, hb, rfl⟩ := map_eq_some_iff.mp hcall
    obtain ⟨front, hid, hheap, hcounter, -⟩ := dequeue_eq_some hb
    refine ⟨fun x hx => ?_, ?_⟩
    · dsimp only at hx ⊢
      rw [hcounter]
      exact h.numbers x (by rw [hheap]; exact .tail _ hx)
    · simp [h.order, hheap, hid]
  | clearStats =>
    simp only [Fifo.call] at hcall
    split_ifs at hcall
    obtain rfl := some.inj hcall
    have hempty : s.buffer.prioHeap = [] := horder
    refine ⟨fun x hx => ?_, h.order⟩
    rw [clearStats, hempty] at hx
    cases hx

/-- Without warmup, nothing is due later than what has come in last. -/
structure Watched (s : Fifo) : Prop where
  strict : s.buffer.strictFifo = true
  due : ∀ x ∈ s.buffer.prioHeap, x.lastEnqueueTime ≤ s.buffer.lastArrivalTime

section

variable (h : Watched s) (hcall : s.call call = some s') (hwarmup : s.NoWarmup call)
include h hcall hwarmup

theorem Watched.inOrder : s.InOrder call := by
  obtain ⟨t, op⟩ := call
  cases op with
  | enqueue message delta c =>
    simp only [Fifo.call] at hcall
    split_ifs at hcall
    obtain ⟨b, hb, rfl⟩ := map_eq_some_iff.mp hcall
    obtain ⟨m, -, htime, -, -, -, -, hlast, -⟩ := enqueue_eq_some hb
    intro x hx
    rw [← htime]
    exact (h.due x hx).trans (hlast h.strict)
  | dequeue => trivial
  | clearStats => exact hwarmup

theorem Watched.step : Watched s' := by
  obtain ⟨t, op⟩ := call
  cases op with
  | enqueue message delta c =>
    simp only [Fifo.call] at hcall
    split_ifs at hcall
    obtain ⟨b, hb, rfl⟩ := map_eq_some_iff.mp hcall
    obtain ⟨m, -, -, -, hheap, -, hstrict, hlast, hnew⟩ := enqueue_eq_some hb
    refine ⟨hstrict.trans h.strict, fun x hx => ?_⟩
    dsimp only at hx ⊢
    rw [hheap, mem_pushHeap] at hx
    rw [hnew hwarmup]
    rcases hx with rfl | hx
    · exact le_rfl
    · exact (h.due x hx).trans (hlast h.strict)
  | dequeue =>
    simp only [Fifo.call] at hcall
    split_ifs at hcall
    obtain ⟨⟨m, b⟩, hb, rfl⟩ := map_eq_some_iff.mp hcall
    obtain ⟨front, -, hheap, -, hstrict, hlast⟩ := dequeue_eq_some hb
    refine ⟨hstrict.trans h.strict, fun x hx => ?_⟩
    dsimp only
    rw [hlast]
    exact h.due x (by rw [hheap]; exact .tail _ hx)
  | clearStats =>
    simp only [Fifo.call] at hcall
    split_ifs at hcall
    obtain rfl := some.inj hcall
    exact ⟨h.strict, h.due⟩

end

/-- Messages come out in the order in which they went in. Without warmup it is enough that the
numbers start again only when no message is there. -/
theorem dequeued_in_order (maxSize : Nat) (randomized : Bool) (s : Fifo)
    (h : ((machine maxSize randomized).restrict InOrder).Reachable s ∨
      ((machine maxSize randomized).restrict NoWarmup).Reachable s) :
    s.enqueued = s.dequeued ++ s.buffer.prioHeap.map Message.id := by
  have hinit : ∀ s, (machine maxSize randomized).init s → Inv s ∧ Watched s := by
    intro s hs
    rw [show s = _ from hs]
    exact ⟨⟨nofun, rfl⟩, ⟨rfl, nofun⟩⟩
  rcases h with h | h
  · exact (Machine.Reachable.invariant (M := (machine maxSize randomized).restrict InOrder)
      (fun s hs => (hinit s hs).1) (fun _ _ _ hinv hstep => hinv.step hstep.1 hstep.2) h).order
  · exact (Machine.Reachable.invariant (M := (machine maxSize randomized).restrict NoWarmup)
      (I := fun s => Inv s ∧ Watched s) hinit (fun _ _ _ hinv hstep =>
      ⟨hinv.1.step hstep.1 (hinv.2.inOrder hstep.1 hstep.2),
        hinv.2.step hstep.1 hstep.2⟩) h).1.order

instance (s : Fifo) : (call : Nat × FifoOp) → Decidable (s.NoWarmup call)
  | (_, .enqueue _ _ c) => inferInstanceAs (Decidable (c.warmup = false))
  | (_, .dequeue) => inferInstanceAs (Decidable True)
  | (_, .clearStats) => inferInstanceAs (Decidable (s.buffer.prioHeap = []))

/-- Two messages for one cycle. -/
theorem dequeued_in_order_two : ∃ s, ((machine 0 false).restrict NoWarmup).Reachable s ∧
    s.dequeued = [1] ∧ s.enqueued = s.dequeued ++ s.buffer.prioHeap.map Message.id := by
  obtain ⟨s, hs, hP⟩ := Machine.exists_run
    (Machine.restrict_step (M := machine 0 false) (f := call) (fun _ _ _ h => h) NoWarmup)
    (.start rfl) [(0, .enqueue (.fresh 1) 1 .none), (0, .enqueue (.fresh 2) 1 .none), (1, .dequeue)]
    (P := fun s => s.dequeued = [1]) (by decide)
  exact ⟨s, hs, hP, dequeued_in_order 0 false s (.inr hs)⟩

/-- Message 2 is put in after message 1, for the same cycle and with a number that starts again, and
comes out before it; or it is put in for an earlier cycle, while there is a warmup. -/
theorem clearStats_reorders :
    (∃ s, (machine 0 false).Reachable s ∧ s.enqueued = [0, 1, 2] ∧ s.dequeued = [0, 2]) ∧
    (∃ s, (machine 0 false).Reachable s ∧ s.enqueued = [1, 2] ∧ s.dequeued = [2]) := by
  constructor
  · exact Machine.exists_run (M := machine 0 false) (f := call) (fun _ _ _ h => h) (.start rfl)
      [(0, .enqueue (.fresh 0) 1 .none), (1, .dequeue), (1, .enqueue (.fresh 1) 1 .none),
        (1, .clearStats), (1, .enqueue (.fresh 2) 1 .none), (2, .dequeue)] (by decide)
  · exact Machine.exists_run (M := machine 0 false) (f := call) (fun _ _ _ h => h) (.start rfl)
      [(0, .enqueue (.fresh 1) 5 ⟨false, true, 0⟩), (0, .enqueue (.fresh 2) 1 ⟨false, true, 0⟩),
        (1, .dequeue)] (by decide)

end Fifo

end Gem5.Ruby.MessageBuffer
