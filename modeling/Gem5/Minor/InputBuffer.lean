import Gem5.Lib.Transition

namespace Gem5.Minor

open Lib List Option

/-! The input buffer of a pipeline stage: a queue with reservations, in front of which a single
element may be held by reference. -/

variable {α : Type} (capacity : Nat) (isBubble : α → Bool)

structure Queue (α : Type) where
  queue : List α := []
  numReservedSlots : Nat := 0

namespace Queue

def freeReservation (q : Queue α) : Queue α :=
  if q.numReservedSlots ≠ 0 then { q with numReservedSlots := q.numReservedSlots - 1 } else q

@[simp] theorem freeReservation_eq (q : Queue α) :
    q.freeReservation = { q with numReservedSlots := q.numReservedSlots - 1 } := by
  obtain ⟨queue, n⟩ := q
  cases n <;> rfl

/-- A full queue only makes it warn. -/
def push (q : Queue α) (data : α) : Queue α :=
  if isBubble data then q else { q.freeReservation with queue := q.queue ++ [data] }

def reserve (q : Queue α) : Queue α := { q with numReservedSlots := q.numReservedSlots + 1 }

/-- The difference is cut to an `int`. -/
def unreservedRemainingSpace (q : Queue α) : Nat :=
  (Int.bmod ((capacity : Int) - (q.queue.length + q.numReservedSlots)) (2 ^ 32)).toNat

def canReserve (q : Queue α) : Bool := q.unreservedRemainingSpace capacity != 0

def pop (q : Queue α) : Queue α := { q with queue := q.queue.tail }

end Queue

structure InputBuffer (α : Type) where
  queue : Queue α := {}
  elementPtr : Option α := none

namespace InputBuffer

def setTail (b : InputBuffer α) (newElement : α) : Option (InputBuffer α) :=
  if b.elementPtr.isSome then none
  else if isBubble newElement then some b
  else if b.queue.queue.isEmpty then some { b with elementPtr := some newElement }
  else some { b with queue := b.queue.push isBubble newElement }

def empty (b : InputBuffer α) : Bool := b.elementPtr.isNone && b.queue.queue.isEmpty

def front (b : InputBuffer α) : Option α := b.elementPtr <|> b.queue.queue.head?

def pop (b : InputBuffer α) : InputBuffer α :=
  if b.elementPtr.isSome then { queue := b.queue.freeReservation, elementPtr := none }
  else { b with queue := b.queue.pop }

def pushTail (b : InputBuffer α) : InputBuffer α :=
  match b.elementPtr with
  | some e => { queue := b.queue.push isBubble e, elementPtr := none }
  | none => b

/-- Asking for the space moves the single element into the queue. -/
def unreservedRemainingSpace (b : InputBuffer α) : InputBuffer α × Nat :=
  (b.pushTail isBubble, (b.pushTail isBubble).queue.unreservedRemainingSpace capacity)

/-- What has been given to the buffer and not been taken from it, oldest first. -/
def contents (b : InputBuffer α) : List α := b.queue.queue ++ b.elementPtr.toList

end InputBuffer

open InputBuffer

/-- The buffer, the reservations that the producer has made and not used, and the elements that
have been given to the buffer and taken from it. -/
structure InputRun (α : Type) where
  buf : InputBuffer α := {}
  owed : Nat := 0
  given : List α := []
  taken : List α := []

inductive InputMove (α : Type) where
  | reserve
  | freeReservation
  | setTail (e : α)
  | pushTail
  | remainingSpace
  | pop

namespace InputRun

def Enabled (r : InputRun α) : InputMove α → Prop
  | .reserve => r.buf.queue.canReserve capacity = true
  | .freeReservation => 0 < r.owed
  | .setTail e => r.buf.elementPtr = none ∧ (isBubble e = false → 0 < r.owed)
  | .pushTail | .remainingSpace => True
  | .pop => r.buf.empty = false

def move (r : InputRun α) : InputMove α → Option (InputRun α)
  | .reserve => some { r with buf.queue := r.buf.queue.reserve, owed := r.owed + 1 }
  | .freeReservation => some { r with
      buf.queue := r.buf.queue.freeReservation, owed := r.owed - 1 }
  | .setTail e => (r.buf.setTail isBubble e).map fun buf =>
      if isBubble e then { r with buf }
      else { r with buf, owed := r.owed - 1, given := r.given ++ [e] }
  | .pushTail => some { r with buf := r.buf.pushTail isBubble }
  | .remainingSpace => some { r with buf := (r.buf.unreservedRemainingSpace capacity isBubble).1 }
  | .pop => some { r with buf := r.buf.pop, taken := r.taken ++ r.buf.front.toList }

def machine : Machine (InputRun α) (InputMove α) where
  init r := r = {}
  step r m t := r.Enabled capacity isBubble m ∧ r.move capacity isBubble m = some t

/-- The single element has a reservation of its own, and none is in the queue beside it. -/
structure Inv (r : InputRun α) : Prop where
  direct : ∀ e ∈ r.buf.elementPtr, r.buf.queue.queue = [] ∧ isBubble e = false
  reserved : r.buf.queue.numReservedSlots = r.owed + r.buf.elementPtr.toList.length
  space : r.buf.queue.queue.length + r.buf.queue.numReservedSlots ≤ capacity
  order : r.taken ++ r.buf.contents = r.given

variable {capacity} {isBubble} {r t : InputRun α}

theorem Inv.pushTail (h : Inv capacity isBubble r) :
    Inv capacity isBubble { r with buf := r.buf.pushTail isBubble } := by
  obtain ⟨⟨⟨q, n⟩, ptr⟩, owed, given, taken⟩ := r
  obtain ⟨hdirect, hreserved, hspace, horder⟩ := h
  cases ptr with
  | none => exact ⟨hdirect, hreserved, hspace, horder⟩
  | some e =>
    obtain ⟨rfl, hb⟩ := hdirect e rfl
    simp only [contents, toList_some, length_singleton] at *
    refine ⟨by simp [pushTail], ?_, ?_, ?_⟩ <;>
      simp [pushTail, contents, Queue.push, hb]
    · omega
    · omega
    · exact horder

theorem Inv.setTail (h : Inv capacity isBubble r) {e : α} (hptr : r.buf.elementPtr = none)
    (howed : isBubble e = false → 0 < r.owed) :
    ∃ t, r.move capacity isBubble (.setTail e) = some t ∧ Inv capacity isBubble t := by
  obtain ⟨⟨⟨q, n⟩, ptr⟩, owed, given, taken⟩ := r
  obtain ⟨hdirect, hreserved, hspace, horder⟩ := h
  subst hptr
  cases hb : isBubble e with
  | true =>
    refine ⟨_, ?_, hdirect, hreserved, hspace, horder⟩
    simp [move, setTail, hb]
  | false =>
    have howed : 0 < owed := howed hb
    have hreserved : n = owed := hreserved
    cases q with
    | nil =>
      refine ⟨⟨⟨⟨[], n⟩, some e⟩, owed - 1, given ++ [e], taken⟩, ?_, by simp [hb], ?_, hspace, ?_⟩
      · simp [move, setTail, hb]
      · dsimp only [toList_some, length_singleton]
        omega
      · simpa [contents] using horder
    | cons x q =>
      refine ⟨⟨⟨⟨x :: q ++ [e], n - 1⟩, none⟩, owed - 1, given ++ [e], taken⟩, ?_, by simp,
        ?_, ?_, ?_⟩
      · simp [move, setTail, Queue.push, hb]
      · dsimp only [toList_none, length_nil]
        omega
      · simp only [length_append, length_singleton] at hspace ⊢
        omega
      · simpa [contents] using congrArg (· ++ [e]) horder

theorem Inv.pop (h : Inv capacity isBubble r) (hen : r.buf.empty = false) : Inv capacity isBubble
      { r with buf := r.buf.pop, taken := r.taken ++ r.buf.front.toList } := by
  obtain ⟨⟨⟨q, n⟩, ptr⟩, owed, given, taken⟩ := r
  obtain ⟨hdirect, hreserved, hspace, horder⟩ := h
  cases ptr with
  | some e =>
    obtain ⟨rfl, -⟩ := hdirect e rfl
    simp only [contents, toList_some, length_singleton] at *
    refine ⟨by simp [pop], ?_, ?_, ?_⟩ <;>
      simp [pop, front, contents]
    · omega
    · exact Nat.le_succ_of_le (by simpa using hspace)
    · exact horder
  | none =>
    cases q with
    | nil => cases hen
    | cons x q =>
      refine ⟨by simp [pop], hreserved, ?_, ?_⟩
      · simp only [length_cons, pop, Queue.pop] at hspace ⊢
        simp
        omega
      · simpa [pop, Queue.pop, front, contents] using horder

/-- Every call that the protocol allows succeeds. -/
theorem Inv.step (h : Inv capacity isBubble r) {m : InputMove α}
    (hen : r.Enabled capacity isBubble m) :
    ∃ t, r.move capacity isBubble m = some t ∧ Inv capacity isBubble t := by
  have hreserved := h.reserved
  have hspace := h.space
  cases m with
  | reserve =>
    refine ⟨_, rfl, h.direct, ?_, ?_, h.order⟩
    · dsimp only [Queue.reserve]
      omega
    by_contra hfull
    have hfull : (capacity : Int) -
        (r.buf.queue.queue.length + r.buf.queue.numReservedSlots) = 0 := by
      dsimp only [Queue.reserve] at hfull
      omega
    simp [Enabled, Queue.canReserve, Queue.unreservedRemainingSpace, hfull] at hen
  | freeReservation =>
    have hen : 0 < r.owed := hen
    refine ⟨_, rfl, ?_, ?_, ?_, ?_⟩ <;> simp only [Queue.freeReservation_eq]
    exacts [h.direct, by omega, by omega, h.order]
  | setTail e => exact h.setTail hen.1 hen.2
  | pushTail => exact ⟨_, rfl, h.pushTail⟩
  | remainingSpace => exact ⟨_, rfl, h.pushTail⟩
  | pop => exact ⟨_, rfl, h.pop hen⟩

theorem reachable_inv (h : (machine capacity isBubble).Reachable r) : Inv capacity isBubble r := by
  refine h.invariant ?_ (fun r m t hi hs => ?_)
  · rintro r rfl
    exact ⟨by simp, rfl, Nat.zero_le _, rfl⟩
  · obtain ⟨t', ht', hi'⟩ := hi.step hs.1
    rwa [← some.inj (ht'.symm.trans hs.2)]

/-- The buffer is a bounded queue: what has been taken and what it holds is what it was given, its
front is the oldest element it holds, there is room for all reservations, and neither a direct
element nor one of the producer finds the queue full. -/
theorem input_buffer_is_bounded_fifo (h : (machine capacity isBubble).Reachable r) :
    r.taken ++ r.buf.contents = r.given ∧ r.buf.front = r.buf.contents.head? ∧
      (r.buf.empty = true ↔ r.buf.contents = []) ∧
      r.buf.queue.queue.length + r.buf.queue.numReservedSlots ≤ capacity ∧
      (r.buf.elementPtr.isSome ∨ 0 < r.owed → r.buf.queue.queue.length < capacity) ∧
      ∀ m, r.Enabled capacity isBubble m → ∃ t, (machine capacity isBubble).step r m t := by
  have hi := reachable_inv h
  have hreserved := hi.reserved
  have hspace := hi.space
  refine ⟨hi.order, ?_, ?_, hi.space, ?_, fun m hen => ?_⟩
  · cases hptr : r.buf.elementPtr with
    | none => simp [front, contents, hptr]
    | some e => simp [front, contents, hptr, (hi.direct e hptr).1]
  · cases hptr : r.buf.elementPtr <;> simp [empty, contents, hptr]
  · rintro (hptr | howed)
    · obtain ⟨e, he⟩ := isSome_iff_exists.mp hptr
      simp only [he, toList_some, length_singleton] at hreserved
      omega
    · omega
  · obtain ⟨t, ht, -⟩ := hi.step hen
    exact ⟨t, hen, ht⟩

/-- Three elements: the first is taken, the second is pushed from the tail into the queue, and the
third follows it there. -/
theorem input_buffer_is_bounded_fifo_three : ∃ r : InputRun Nat,
    (machine 2 (· == 0)).Reachable r ∧ r.taken = [5] ∧ r.given = [5, 6, 7] ∧
    r.taken ++ r.buf.contents = r.given ∧ r.buf.front = r.buf.contents.head? := by
  have h : (machine 2 (· == 0)).Reachable ({} : InputRun Nat) := .start rfl
  have h := h.next (a := InputMove.reserve) ⟨rfl, rfl⟩
  have h := h.next (a := InputMove.setTail 5) ⟨⟨rfl, fun _ => Nat.one_pos⟩, rfl⟩
  have h := h.next (a := InputMove.pop) ⟨rfl, rfl⟩
  have h := h.next (a := InputMove.reserve) ⟨rfl, rfl⟩
  have h := h.next (a := InputMove.reserve) ⟨rfl, rfl⟩
  have h := h.next (a := InputMove.setTail 6) ⟨⟨rfl, fun _ => Nat.two_pos⟩, rfl⟩
  have h := h.next (a := InputMove.pushTail) ⟨trivial, rfl⟩
  have h := h.next (a := InputMove.setTail 7) ⟨⟨rfl, fun _ => Nat.one_pos⟩, rfl⟩
  obtain ⟨horder, hfront, -⟩ := input_buffer_is_bounded_fifo h
  exact ⟨_, h, rfl, rfl, horder, hfront⟩

end InputRun

end Gem5.Minor
