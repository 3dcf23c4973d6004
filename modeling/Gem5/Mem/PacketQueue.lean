import Gem5.Lib.Transition

namespace Gem5.Mem

open Lib List Option

def maxTick : Nat := 2 ^ 64 - 1

/-- A packet, with the number of the call that enqueued it. -/
structure Packet where
  id : Nat
  addr : Nat
deriving DecidableEq

/-- A packet in the queue. How it was enqueued is recorded and never read. -/
structure DeferredPacket where
  tick : Nat
  pkt : Packet
  forceOrder : Bool
deriving DecidableEq

/-- The queue at a tick. `sending` is the packet that `sendDeferredPacket` has taken off the
list while it is inside `sendTiming`. -/
structure PacketQueue where
  curTick : Nat
  transmitList : List DeferredPacket
  sendEvent : Option Nat
  waitingOnRetry : Bool
  disableSanityCheck : Bool
  sending : Option DeferredPacket
deriving DecidableEq

namespace PacketQueue

def deferredPacketReady (q : PacketQueue) : Bool :=
  q.transmitList.head?.any (fun dp => dp.tick ≤ q.curTick)

def deferredPacketReadyTime (q : PacketQueue) : Nat :=
  match q.transmitList with
  | [] => maxTick
  | dp :: _ => dp.tick

def wakeAt (q : PacketQueue) (tick : Nat) : PacketQueue :=
  match q.sendEvent with
  | none => { q with sendEvent := some tick }
  | some w => if tick < w then { q with sendEvent := some tick } else q

def schedSendEvent (q : PacketQueue) (tick : Nat) : Option PacketQueue :=
  if q.waitingOnRetry then
    if q.sendEvent.isSome then none else some q
  else if tick ≠ maxTick then some (q.wakeAt (max tick (q.curTick + 1)))
  else some q

/-- The search for the place of a packet, from the end of the list: the list is given last
packet first. The loop ends at the first packet without a look at its tick. -/
def emplaceFromEnd (dp : DeferredPacket) : List DeferredPacket → List DeferredPacket
  | [] => [dp]
  | [first] => [dp, first]
  | i :: rest =>
    if dp.tick < i.tick && !(dp.forceOrder && i.pkt.addr == dp.pkt.addr) then
      i :: emplaceFromEnd dp rest
    else dp :: i :: rest

def emplace (dp : DeferredPacket) (l : List DeferredPacket) : List DeferredPacket :=
  (emplaceFromEnd dp l.reverse).reverse

section

variable (q : PacketQueue)
include q

def schedSendTiming (dp : DeferredPacket) : Option PacketQueue :=
  if dp.tick < q.curTick then none
  else if !q.disableSanityCheck && 100 < q.transmitList.length then none
  else if q.transmitList = [] then
    ({ q with transmitList := [dp] }).schedSendEvent dp.tick
  else some { q with transmitList := emplace dp q.transmitList }

def sendDeferredPacket : Option PacketQueue :=
  if q.waitingOnRetry || !q.deferredPacketReady then none
  else
    match q.transmitList with
    | [] => none
    | dp :: rest => some { q with transmitList := rest, sending := some dp }

def sendReturned (dp : DeferredPacket) (accepted : Bool) : Option PacketQueue :=
  if accepted then
    ({ q with sending := none, waitingOnRetry := false }).schedSendEvent q.deferredPacketReadyTime
  else
    some { q with sending := none, waitingOnRetry := true, transmitList := dp :: q.transmitList }

/-- The send event leaves the event queue when it is processed. -/
def processSendEvent : Option PacketQueue :=
  if q.waitingOnRetry then none else ({ q with sendEvent := none }).sendDeferredPacket

def retry : Option PacketQueue :=
  if q.waitingOnRetry then ({ q with waitingOnRetry := false }).sendDeferredPacket else none

end

/-- A queue with the packets enqueued so far and those sent, each with the tick at which it
was accepted. -/
structure Trace where
  queue : PacketQueue
  enqueued : List DeferredPacket
  sent : List (DeferredPacket × Nat)
deriving DecidableEq

/-- What happens to a queue. Packets may also be enqueued while one is being sent. -/
inductive Move
  | schedSendTiming (addr tick : Nat) (forceOrder : Bool)
  | processSendEvent
  | retry
  | sendTiming (accepted : Bool)
  | advance (tick : Nat)

/-- One move. The send event is processed at its tick. -/
def move (s : Trace) : Move → Option Trace
  | .schedSendTiming addr tick forceOrder =>
    let dp : DeferredPacket := ⟨tick, ⟨s.enqueued.length, addr⟩, forceOrder⟩
    (s.queue.schedSendTiming dp).map
      (fun q => { s with queue := q, enqueued := s.enqueued ++ [dp] })
  | .processSendEvent =>
    if s.queue.sending = none ∧ s.queue.sendEvent = some s.queue.curTick then
      s.queue.processSendEvent.map (fun q => { s with queue := q })
    else none
  | .retry =>
    if s.queue.sending = none then s.queue.retry.map (fun q => { s with queue := q }) else none
  | .sendTiming accepted =>
    match s.queue.sending with
    | none => none
    | some dp =>
      (s.queue.sendReturned dp accepted).map (fun q =>
        { s with
          queue := q
          sent := if accepted then s.sent ++ [(dp, s.queue.curTick)] else s.sent })
  | .advance tick =>
    if s.queue.sending = none ∧ s.queue.curTick ≤ tick ∧ ∀ w ∈ s.queue.sendEvent, tick ≤ w then
      some { s with queue := { s.queue with curTick := tick } }
    else none

def fresh (tick : Nat) (disableSanityCheck : Bool) : Trace :=
  ⟨⟨tick, [], none, false, disableSanityCheck, none⟩, [], []⟩

def machine : Machine Trace Move where
  init s := ∃ tick disableSanityCheck, s = fresh tick disableSanityCheck
  step s m t := move s m = some t

/-! Where a packet is put. -/

section

variable (dp : DeferredPacket)
include dp

theorem emplaceFromEnd_eq (hl : l ≠ []) :
    ∃ later i rest, l = later ++ i :: rest ∧ emplaceFromEnd dp l = later ++ dp :: i :: rest ∧
      (∀ x ∈ later, dp.tick < x.tick ∧ ¬(dp.forceOrder = true ∧ x.pkt.addr = dp.pkt.addr)) ∧
      (rest = [] ∨ i.tick ≤ dp.tick ∨ dp.forceOrder = true) := by
  induction l with
  | nil => exact absurd rfl hl
  | cons i rest ih =>
    cases rest with
    | nil => exact ⟨[], i, [], rfl, rfl, forall_mem_nil _, .inl rfl⟩
    | cons j rest =>
      unfold emplaceFromEnd
      split_ifs with hover
      · obtain ⟨later, k, rest', hl', hemplace, hlater, hstop⟩ := ih (cons_ne_nil _ _)
        refine ⟨i :: later, k, rest', by rw [hl', cons_append],
          by rw [hemplace, cons_append], fun x hx => ?_, hstop⟩
        rcases mem_cons.mp hx with heq | hx
        · subst x
          obtain ⟨htick, hbound⟩ := Bool.and_eq_true_iff.mp hover
          exact ⟨of_decide_eq_true htick, fun ⟨hforce, haddr⟩ => by simp [hforce, haddr] at hbound⟩
        · exact hlater x hx
      · refine ⟨[], i, j :: rest, rfl, rfl, forall_mem_nil _, ?_⟩
        by_cases htick : i.tick ≤ dp.tick
        · exact .inr (.inl htick)
        · refine .inr (.inr ?_)
          have hlt : dp.tick < i.tick := by omega
          simp only [hlt, decide_true, Bool.true_and, Bool.not_eq_true', Bool.not_eq_false,
            Bool.and_eq_true] at hover
          exact hover.1

/-- A packet goes behind a packet `i` that is the first of the list, or is due no later, or
to whose address it is bound; those behind it are all due later. -/
theorem emplace_eq (hl : l ≠ []) :
    ∃ before i later, l = before ++ i :: later ∧ emplace dp l = before ++ i :: dp :: later ∧
      (∀ x ∈ later, dp.tick < x.tick ∧ ¬(dp.forceOrder = true ∧ x.pkt.addr = dp.pkt.addr)) ∧
      (before = [] ∨ i.tick ≤ dp.tick ∨ dp.forceOrder = true) := by
  obtain ⟨later, i, rest, hrev, hemplace, hlater, hstop⟩ :=
    emplaceFromEnd_eq dp (l := l.reverse) (by simpa using hl)
  refine ⟨rest.reverse, i, later.reverse, ?_, ?_, fun x hx => hlater x (mem_reverse.mp hx), ?_⟩
  · have := congrArg List.reverse hrev
    simpa using this
  · unfold emplace
    rw [hemplace]
    simp
  · exact hstop.imp_left (fun h => by rw [h]; rfl)

theorem emplace_perm (l : List DeferredPacket) : (emplace dp l).Perm (l ++ [dp]) := by
  obtain rfl | hl := eq_or_ne l ([])
  · exact .refl _
  · obtain ⟨before, i, later, hl', hemplace, -⟩ := emplace_eq dp hl
    rw [hemplace, hl', append_assoc, cons_append]
    exact (((perm_append_singleton dp later).symm).cons i).append_left before

theorem emplace_head (hl : l ≠ []) : (emplace dp l).head? = l.head? := by
  obtain ⟨before, i, later, hl', hemplace, -⟩ := emplace_eq dp hl
  rw [hemplace, hl']
  cases before <;> rfl

end

/-- A packet overtakes the second of the list only if it is due before it. -/
theorem emplace_second (dp first : DeferredPacket) (hx : x ∈ rest.head?) :
    ∃ y ∈ (emplace dp (first :: rest)).tail.head?, y.tick ≤ x.tick := by
  obtain ⟨before, i, later, hl, hemplace, hlater, -⟩ :=
    emplace_eq dp (cons_ne_nil first rest)
  rw [hemplace]
  cases before with
  | nil =>
    cases hl
    exact ⟨dp, rfl, Nat.le_of_lt (hlater x (mem_of_mem_head? hx)).1⟩
  | cons b before =>
    obtain ⟨-, rfl⟩ := List.cons.inj hl
    refine ⟨x, ?_, le_rfl⟩
    cases before <;> exact hx

def Bound (addr : Nat) (dp : DeferredPacket) : Bool := dp.forceOrder && dp.pkt.addr == addr

theorem emplace_filter (addr : Nat) (dp : DeferredPacket) (l : List DeferredPacket) :
    (emplace dp l).filter (Bound addr) = (l ++ [dp]).filter (Bound addr) := by
  obtain rfl | hl := eq_or_ne l ([])
  · rfl
  obtain ⟨before, i, later, hl', hemplace, hlater, -⟩ := emplace_eq dp hl
  rw [hemplace, hl']
  by_cases hdp : Bound addr dp = true
  · -- nothing behind it is bound to its address
    obtain ⟨hforce, haddr⟩ : dp.forceOrder = true ∧ dp.pkt.addr = addr := by
      simpa [Bound] using hdp
    have hnone : later.filter (Bound addr) = [] := by
      refine filter_eq_nil_iff.mpr (fun x hx hbound => (hlater x hx).2 ⟨hforce, ?_⟩)
      have hx : x.forceOrder = true ∧ x.pkt.addr = addr := by simpa [Bound] using hbound
      rw [hx.2, haddr]
    simp [filter_append, filter_cons, hdp, hnone]
  · simp [filter_append, filter_cons, hdp]

def Sorted (l : List DeferredPacket) : Prop := l.Pairwise (fun x y => x.tick ≤ y.tick)

instance (l : List DeferredPacket) : Decidable (Sorted l) :=
  inferInstanceAs (Decidable (l.Pairwise _))

/-- A sorted list stays sorted exactly if the packet is due no earlier than the first one. -/
theorem emplace_sorted (hsorted : Sorted l) (hl : l ≠ []) (hfree : dp.forceOrder = false) :
    Sorted (emplace dp l) ↔ ∀ x ∈ l.head?, x.tick ≤ dp.tick := by
  obtain ⟨before, i, later, hl', hemplace, hlater, hstop⟩ := emplace_eq dp hl
  rw [hemplace]
  subst hl'
  obtain ⟨hbefore, hrest, hacross⟩ := pairwise_append.mp hsorted
  obtain ⟨hi, hlater'⟩ := pairwise_cons.mp hrest
  constructor
  · intro h x hx
    obtain ⟨-, hrest', hacross'⟩ := pairwise_append.mp h
    have hidp : i.tick ≤ dp.tick := (pairwise_cons.mp hrest').1 dp mem_cons_self
    cases before with
    | nil =>
      cases hx
      exact hidp
    | cons b before =>
      cases hx
      exact hacross' _ mem_cons_self dp (mem_cons_of_mem _ mem_cons_self)
  intro hhead
  have hidp : i.tick ≤ dp.tick := by
    rcases hstop with hnil | hle | hforce
    · subst hnil
      exact hhead i rfl
    · exact hle
    · rw [hfree] at hforce
      cases hforce
  refine pairwise_append.mpr ⟨hbefore, ?_, fun x hx y hy => ?_⟩
  · refine pairwise_cons.mpr ⟨fun y hy => ?_, ?_⟩
    · rcases mem_cons.mp hy with heq | hy
      · rwa [heq]
      · exact hi y hy
    · exact pairwise_cons.mpr ⟨fun y hy => Nat.le_of_lt (hlater y hy).1, hlater'⟩
  · have hxi := hacross x hx i mem_cons_self
    rcases mem_cons.mp hy with rfl | hy
    · exact hxi
    · rcases mem_cons.mp hy with rfl | hy
      · exact hxi.trans hidp
      · exact hacross x hx y (mem_cons_of_mem _ hy)

/-! What every run keeps. -/

theorem deferredPacketReady_iff {q : PacketQueue} :
    q.deferredPacketReady = true ↔ ∃ dp ∈ q.transmitList.head?, dp.tick ≤ q.curTick := by
  simp [deferredPacketReady, Option.any_eq_true]

/-- The packets that the send event is for: the first one of the list is not among them while
it waits for a retry. -/
def awaiting (q : PacketQueue) : List DeferredPacket :=
  if q.waitingOnRetry then q.transmitList.tail else q.transmitList

/-- The event and the flag only ask for a packet that is due. -/
structure Wakes (q : PacketQueue) : Prop where
  event : ∀ w ∈ q.sendEvent, ∃ dp ∈ q.awaiting.head?, dp.tick ≤ w
  waiting : q.waitingOnRetry = true → q.deferredPacketReady = true
  sending : ∀ dp ∈ q.sending, q.waitingOnRetry = false ∧ dp.tick ≤ q.curTick

theorem Wakes.schedSendEvent {tick : Nat} (h : Wakes q) (hrun : q.schedSendEvent tick = some q')
    (htick : tick ≠ maxTick → ∃ dp ∈ q.transmitList.head?, dp.tick ≤ tick) : Wakes q' := by
  unfold PacketQueue.schedSendEvent at hrun
  split at hrun
  · split_ifs at hrun
    cases hrun
    exact h
  rename_i hretry
  split_ifs at hrun with hmax
  · cases hrun
    obtain ⟨dp, hdp, hle⟩ := htick hmax
    have hawait : q.awaiting = q.transmitList := if_neg hretry
    have hnew : Wakes { q with sendEvent := some (max tick (q.curTick + 1)) } := by
      refine ⟨fun w hw => ?_, h.waiting, h.sending⟩
      cases hw
      exact ⟨dp, by rw [← hawait] at hdp; exact hdp, by omega⟩
    unfold wakeAt
    split
    · exact hnew
    · split
      · exact hnew
      · exact h
  · cases hrun
    exact h

variable {q q' : PacketQueue} {dp : DeferredPacket} {s t : Trace}

theorem schedSendEvent_eq {tick : Nat} (h : q.schedSendEvent tick = some q') :
    ∃ event, q' = { q with sendEvent := event } := by
  unfold PacketQueue.schedSendEvent wakeAt at h
  repeat' split at h
  all_goals cases h
  all_goals exact ⟨_, rfl⟩

theorem schedSendTiming_eq (h : q.schedSendTiming dp = some q') :
    q.curTick ≤ dp.tick ∧ ∃ event, q' = { q with
      sendEvent := event, transmitList := emplace dp q.transmitList } := by
  unfold PacketQueue.schedSendTiming at h
  split at h
  · cases h
  rename_i htick
  split at h
  · cases h
  split_ifs at h with hnil
  · obtain ⟨event, hq⟩ := schedSendEvent_eq h
    refine ⟨by omega, event, ?_⟩
    rw [hq, hnil]
    rfl
  · cases h
    exact ⟨by omega, q.sendEvent, rfl⟩

theorem Wakes.schedSendTiming (h : Wakes q) (hrun : q.schedSendTiming dp = some q') : Wakes q' := by
  unfold PacketQueue.schedSendTiming at hrun
  split at hrun
  · cases hrun
  split at hrun
  · cases hrun
  split_ifs at hrun with hnil
  · refine Wakes.schedSendEvent ?_ hrun (fun _ => ⟨dp, rfl, le_rfl⟩)
    have hretry : q.waitingOnRetry = false := by
      by_contra hretry
      obtain ⟨dp', hdp', -⟩ := deferredPacketReady_iff.mp (h.waiting (by simpa using hretry))
      rw [hnil] at hdp'
      cases hdp'
    refine ⟨fun w hw => ?_, fun hw => ?_, h.sending⟩
    · obtain ⟨dp', hdp', -⟩ := h.event w hw
      rw [awaiting, hretry, hnil] at hdp'
      cases hdp'
    · rw [hretry] at hw
      cases hw
  · cases hrun
    have hhead := emplace_head dp hnil
    refine ⟨fun w hw => ?_, fun hw => ?_, h.sending⟩
    · obtain ⟨x, hx, hle⟩ := h.event w hw
      unfold awaiting at hx ⊢
      split_ifs with hretry
      · rw [if_pos hretry] at hx
        obtain ⟨first, rest, hl⟩ := exists_cons_of_ne_nil hnil
        rw [hl] at hx ⊢
        obtain ⟨y, hy, hyx⟩ := emplace_second dp first hx
        exact ⟨y, hy, hyx.trans hle⟩
      · rw [if_neg hretry] at hx
        exact ⟨x, by rw [hhead]; exact hx, hle⟩
    · obtain ⟨x, hx, hle⟩ := deferredPacketReady_iff.mp (h.waiting hw)
      exact deferredPacketReady_iff.mpr ⟨x, by rw [hhead]; exact hx, hle⟩

theorem sendDeferredPacket_eq (h : q.sendDeferredPacket = some q') :
    q.waitingOnRetry = false ∧ ∃ dp rest, q.transmitList = dp :: rest ∧ dp.tick ≤ q.curTick ∧
      q' = { q with transmitList := rest, sending := some dp } := by
  unfold PacketQueue.sendDeferredPacket at h
  split_ifs at h with hok
  have hok : q.waitingOnRetry = false ∧ q.deferredPacketReady = true := by simpa using hok
  split at h
  · cases h
  rename_i dp rest hl
  cases h
  obtain ⟨x, hx, hle⟩ := deferredPacketReady_iff.mp hok.2
  rw [hl] at hx
  cases hx
  exact ⟨hok.1, _, rest, hl, hle, rfl⟩

theorem processSendEvent_eq (h : q.processSendEvent = some q') :
    q.waitingOnRetry = false ∧ ∃ dp rest, q.transmitList = dp :: rest ∧ dp.tick ≤ q.curTick ∧
      q' = { q with sendEvent := none, transmitList := rest, sending := some dp } := by
  unfold PacketQueue.processSendEvent at h
  split_ifs at h
  exact sendDeferredPacket_eq h

theorem retry_eq (h : q.retry = some q') :
    q.waitingOnRetry = true ∧ ∃ dp rest, q.transmitList = dp :: rest ∧ dp.tick ≤ q.curTick ∧
      q' = { q with waitingOnRetry := false, transmitList := rest, sending := some dp } := by
  unfold PacketQueue.retry at h
  split_ifs at h with hretry
  exact ⟨hretry, (sendDeferredPacket_eq h).2⟩

theorem sendReturned_eq {accepted : Bool} (h : q.sendReturned dp accepted = some q') :
    ∃ event, q' = { q with
      sending := none, waitingOnRetry := !accepted, sendEvent := event,
      transmitList := if accepted then q.transmitList else dp :: q.transmitList } := by
  unfold PacketQueue.sendReturned at h
  split_ifs at h with haccepted
  · obtain ⟨event, hq⟩ := schedSendEvent_eq h
    exact ⟨event, by rw [hq, haccepted]; rfl⟩
  · cases h
    exact ⟨q.sendEvent, by simp [haccepted]⟩

theorem Wakes.processSendEvent (hrun : q.processSendEvent = some q') : Wakes q' := by
  obtain ⟨hretry, dp, rest, -, hdue, rfl⟩ := processSendEvent_eq hrun
  refine ⟨nofun, fun hw => ?_, fun x hx => ?_⟩
  · rw [hretry] at hw
    cases hw
  · cases hx
    exact ⟨hretry, hdue⟩

theorem Wakes.retry (h : Wakes q) (hrun : q.retry = some q') : Wakes q' := by
  obtain ⟨hretry, dp, rest, hl, hdue, rfl⟩ := retry_eq hrun
  refine ⟨fun w hw => ?_, fun hw => ?_, fun x hx => ?_⟩
  · obtain ⟨x, hx, hle⟩ := h.event w hw
    rw [awaiting, if_pos hretry, hl] at hx
    exact ⟨x, hx, hle⟩
  · cases hw
  · cases hx
    exact ⟨rfl, hdue⟩

theorem Wakes.sendReturned {accepted : Bool}
    (h : Wakes q) (hdp : dp ∈ q.sending) (hrun : q.sendReturned dp accepted = some q') :
    Wakes q' := by
  obtain ⟨hretry, hdue⟩ := h.sending dp hdp
  have hevent : ∀ w ∈ q.sendEvent, ∃ x ∈ q.transmitList.head?, x.tick ≤ w := by
    intro w hw
    obtain ⟨x, hx, hle⟩ := h.event w hw
    rw [awaiting, hretry] at hx
    exact ⟨x, hx, hle⟩
  unfold PacketQueue.sendReturned at hrun
  split at hrun
  · refine Wakes.schedSendEvent ⟨hevent, fun hw => (by cases hw), fun x hx => (by cases hx)⟩ hrun
      (fun hmax => ?_)
    unfold deferredPacketReadyTime at hmax ⊢
    cases hl : q.transmitList with
    | nil =>
      rw [hl] at hmax
      exact absurd rfl hmax
    | cons x rest => exact ⟨x, rfl, le_rfl⟩
  · cases hrun
    exact ⟨hevent, fun _ => deferredPacketReady_iff.mpr ⟨dp, rfl, hdue⟩, nofun⟩

def Trace.line (s : Trace) : List DeferredPacket :=
  s.sent.map Prod.fst ++ (s.queue.sending.toList ++ s.queue.transmitList)

structure Trace.Kept (s : Trace) : Prop where
  wakes : Wakes s.queue
  perm : s.line.Perm s.enqueued
  bound : ∀ addr, s.line.filter (Bound addr) = s.enqueued.filter (Bound addr)
  due : ∀ p ∈ s.sent, p.1.tick ≤ p.2

theorem Trace.Kept.sameLine (h : s.Kept) (hwakes : Wakes t.queue)
    (hline : t.line = s.line) (henqueued : t.enqueued = s.enqueued)
    (hdue : ∀ p ∈ t.sent, p.1.tick ≤ p.2) : t.Kept :=
  ⟨hwakes, by rw [hline, henqueued]; exact h.perm,
    fun addr => by rw [hline, henqueued]; exact h.bound addr, hdue⟩

theorem Trace.Kept.move (h : s.Kept) {m : Move} (hmove : move s m = some t) : t.Kept := by
  cases m with
  | schedSendTiming addr tick forceOrder =>
    obtain ⟨q, hq, rfl⟩ := map_eq_some_iff.mp hmove
    obtain ⟨-, event, hq'⟩ := schedSendTiming_eq hq
    refine ⟨h.wakes.schedSendTiming hq, ?_, fun addr' => ?_, h.due⟩
    · refine List.Perm.trans ?_ (h.perm.append_right _)
      rw [hq']
      dsimp only [Trace.line]
      rw [append_assoc, append_assoc]
      exact ((emplace_perm _ _).append_left _).append_left _
    · rw [filter_append, ← h.bound addr', hq']
      dsimp only [Trace.line]
      simp only [filter_append, emplace_filter, append_assoc]
  | processSendEvent =>
    simp only [PacketQueue.move] at hmove
    split_ifs at hmove with hidle
    obtain ⟨q, hq, rfl⟩ := map_eq_some_iff.mp hmove
    obtain ⟨-, dp, rest, hl, -, hq'⟩ := processSendEvent_eq hq
    refine h.sameLine (.processSendEvent hq) ?_ rfl h.due
    rw [Trace.line, Trace.line, hidle.1, hl, hq']
    rfl
  | retry =>
    simp only [PacketQueue.move] at hmove
    split_ifs at hmove with hidle
    obtain ⟨q, hq, rfl⟩ := map_eq_some_iff.mp hmove
    obtain ⟨-, dp, rest, hl, -, hq'⟩ := retry_eq hq
    refine h.sameLine (h.wakes.retry hq) ?_ rfl h.due
    rw [Trace.line, Trace.line, hidle, hl, hq']
    rfl
  | sendTiming accepted =>
    simp only [PacketQueue.move] at hmove
    split at hmove
    · cases hmove
    rename_i dp hdp
    obtain ⟨q, hq, rfl⟩ := map_eq_some_iff.mp hmove
    obtain ⟨event, hq'⟩ := sendReturned_eq hq
    have hdue := (h.wakes.sending dp hdp).2
    refine h.sameLine (h.wakes.sendReturned hdp hq) ?_ rfl ?_
    · rw [Trace.line, Trace.line, hdp, hq']
      cases accepted <;> simp
    cases accepted with
    | false => exact h.due
    | true =>
      intro p hp
      rcases mem_append.mp hp with hp | hp
      · exact h.due p hp
      · rw [mem_singleton.mp hp]
        exact hdue
  | advance tick =>
    simp only [PacketQueue.move] at hmove
    split_ifs at hmove with hlater
    cases hmove
    refine h.sameLine ⟨h.wakes.event, fun hw => ?_, fun x hx => ?_⟩ rfl rfl h.due
    · obtain ⟨x, hx, hle⟩ := deferredPacketReady_iff.mp (h.wakes.waiting hw)
      exact deferredPacketReady_iff.mpr ⟨x, hx, hle.trans hlater.2.1⟩
    · rw [hlater.1] at hx
      cases hx

theorem Trace.Kept.of_reachable (h : machine.Reachable s) : s.Kept := by
  refine h.invariant ?_ (fun _ _ _ hi hs => hi.move hs)
  rintro _ ⟨tick, disableSanityCheck, rfl⟩
  refine ⟨⟨nofun, nofun, nofun⟩, .refl _,
    fun _ => rfl, nofun⟩

/-! The list is in order while no packet is put behind one that is due later. -/

/-- A packet that finds others in the list is due no earlier than the first of them. -/
def NotBeforeFirst (s : Trace) : Move → Prop
  | .schedSendTiming _ tick _ => ∀ x ∈ s.queue.transmitList.head?, x.tick ≤ tick
  | _ => True

instance (s : Trace) (m : Move) : Decidable (NotBeforeFirst s m) := by
  cases m <;> unfold NotBeforeFirst <;> infer_instance

/-- The order of the list, with the packet that may be put back in front of it. -/
structure Trace.InOrder (s : Trace) : Prop where
  kept : s.Kept
  sorted : (∀ dp ∈ s.enqueued, dp.forceOrder = false) →
    Sorted (s.queue.sending.toList ++ s.queue.transmitList)

theorem Trace.InOrder.move (h : s.InOrder) {m : Move} (hmove : move s m = some t)
    (hm : NotBeforeFirst s m) : t.InOrder := by
  refine ⟨h.kept.move hmove, fun hfree => ?_⟩
  cases m with
  | schedSendTiming addr tick forceOrder =>
    obtain ⟨q, hq, rfl⟩ := map_eq_some_iff.mp hmove
    obtain ⟨hnow, event, rfl⟩ := schedSendTiming_eq hq
    obtain ⟨hsending, hlist, hacross⟩ := pairwise_append.mp
      (h.sorted (fun dp hdp => hfree dp (mem_append_left _ hdp)))
    refine pairwise_append.mpr ⟨hsending, ?_, fun x hx y hy => ?_⟩
    · by_cases hnil : s.queue.transmitList = []
      · rw [hnil]
        exact pairwise_singleton _ _
      · refine (emplace_sorted hlist hnil ?_).mpr hm
        exact hfree _ (mem_append_right _ mem_cons_self)
    · rcases mem_append.mp ((emplace_perm _ _).mem_iff.mp hy) with hy | hy
      · exact hacross x hx y hy
      · rw [mem_singleton.mp hy]
        exact Nat.le_trans (h.kept.wakes.sending x (mem_toList.mp hx)).2 hnow
  | processSendEvent =>
    simp only [PacketQueue.move] at hmove
    split_ifs at hmove with hidle
    obtain ⟨q, hq, rfl⟩ := map_eq_some_iff.mp hmove
    obtain ⟨-, dp, rest, hl, -, rfl⟩ := processSendEvent_eq hq
    have hsorted := h.sorted hfree
    rw [hidle.1, hl] at hsorted
    exact hsorted
  | retry =>
    simp only [PacketQueue.move] at hmove
    split_ifs at hmove with hidle
    obtain ⟨q, hq, rfl⟩ := map_eq_some_iff.mp hmove
    obtain ⟨-, dp, rest, hl, -, rfl⟩ := retry_eq hq
    have hsorted := h.sorted hfree
    rw [hidle, hl] at hsorted
    exact hsorted
  | sendTiming accepted =>
    simp only [PacketQueue.move] at hmove
    split at hmove
    · cases hmove
    rename_i dp hdp
    obtain ⟨q, hq, rfl⟩ := map_eq_some_iff.mp hmove
    obtain ⟨event, rfl⟩ := sendReturned_eq hq
    have hsorted := h.sorted hfree
    rw [hdp] at hsorted
    cases accepted with
    | false => exact hsorted
    | true => exact (pairwise_cons.mp hsorted).2
  | advance tick =>
    simp only [PacketQueue.move] at hmove
    split_ifs at hmove
    cases hmove
    exact h.sorted hfree

theorem Trace.InOrder.of_reachable (h : (machine.restrict NotBeforeFirst).Reachable s) :
    s.InOrder := by
  refine h.invariant ?_ (fun _ _ _ hi hs => hi.move hs.1 hs.2)
  rintro _ ⟨tick, disableSanityCheck, rfl⟩
  exact ⟨.of_reachable (.start ⟨tick, disableSanityCheck, rfl⟩), fun _ => List.Pairwise.nil⟩

/-- In every run no packet is lost or duplicated, none is sent early, what an event or a retry
is about to send is due, and packets bound to an address are sent in the order in which they
were enqueued. In runs whose packets are never due before the first of the list they join, the
list is sorted as long as no packet is bound. -/
theorem delivery_order {s : Trace} (h : machine.Reachable s) :
    (s.sent.map Prod.fst ++ (s.queue.sending.toList ++ s.queue.transmitList)).Perm s.enqueued ∧
      (∀ p ∈ s.sent, p.1.tick ≤ p.2) ∧
      (s.queue.sending = none →
        (s.queue.waitingOnRetry = true ∨ s.queue.sendEvent = some s.queue.curTick) →
        s.queue.deferredPacketReady = true) ∧
      (∀ addr, (s.sent.map Prod.fst).filter (Bound addr) <+: s.enqueued.filter (Bound addr)) ∧
      ((machine.restrict NotBeforeFirst).Reachable s →
        (∀ dp ∈ s.enqueued, dp.forceOrder = false) → Sorted s.queue.transmitList) := by
  have hs := Trace.Kept.of_reachable h
  refine ⟨hs.perm, hs.due, fun _ hwake => ?_, fun addr => ?_, fun hr hfree => ?_⟩
  · by_cases hretry : s.queue.waitingOnRetry = true
    · exact hs.wakes.waiting hretry
    · obtain ⟨x, hx, hle⟩ := hs.wakes.event _ (hwake.resolve_left hretry)
      rw [awaiting, if_neg hretry] at hx
      exact deferredPacketReady_iff.mpr ⟨x, hx, hle⟩
  · rw [← hs.bound addr, Trace.line, filter_append]
    exact prefix_append _ _
  · exact (pairwise_append.mp ((Trace.InOrder.of_reachable hr).sorted hfree)).2.1

/-- A packet that is rejected while two others are behind it. -/
theorem delivery_order_rejected :
    ∃ s, (machine.restrict NotBeforeFirst).Reachable s ∧ s.queue.transmitList.length = 3 ∧
      s.queue.deferredPacketReady = true ∧ Sorted s.queue.transmitList := by
  obtain ⟨s, hr, hlength, hidle, hretry, hfree⟩ := Machine.exists_run
    (M := machine.restrict NotBeforeFirst)
    (Machine.restrict_step (f := move) (fun _ _ _ h => h) NotBeforeFirst) (.start ⟨0, false, rfl⟩)
    [.schedSendTiming 64 0 false, .schedSendTiming 128 3 false, .advance 1, .processSendEvent,
      .schedSendTiming 192 4 false, .sendTiming false]
    (P := fun s => s.queue.transmitList.length = 3 ∧ s.queue.sending = none ∧
      s.queue.waitingOnRetry = true ∧ ∀ dp ∈ s.enqueued, dp.forceOrder = false) (by decide)
  have h := delivery_order hr.of_restrict
  exact ⟨s, hr, hlength, h.2.2.1 hidle (.inl hretry), h.2.2.2.2 hr hfree⟩

/-- A packet due before the only one in the list is put behind it. -/
theorem transmitList_unsorted :
    ∃ s, machine.Reachable s ∧ (∀ dp ∈ s.enqueued, dp.forceOrder = false) ∧
      ¬Sorted s.queue.transmitList := by
  exact Machine.exists_run (M := machine) (f := move) (fun _ _ _ h => h) (.start ⟨0, false, rfl⟩)
    [.schedSendTiming 64 10 false, .schedSendTiming 128 5 false] (by decide)

end PacketQueue

end Gem5.Mem
