import Gem5.Mem.PacketQueue

namespace Gem5.Mem.PacketQueue

open Lib List Option

/-! A queue that is not empty waits for a retry or has its send event scheduled. -/

/-- A queue with its history, and the tick at which the send event was scheduled or moved last. -/
structure Watch where
  trace : Trace
  scheduledAt : Nat

namespace Watch

/-- The tick of the last scheduling, once the send event is as given. -/
def noted (s : Watch) (event : Option Nat) : Nat :=
  if event.isSome ∧ event ≠ s.trace.queue.sendEvent then s.trace.queue.curTick else s.scheduledAt

def move (s : Watch) (m : Move) : Option Watch :=
  (PacketQueue.move s.trace m).map (fun t => ⟨t, s.noted t.queue.sendEvent⟩)

def machine : Machine Watch Move where
  init s := PacketQueue.machine.init s.trace
  step s m t := s.move m = some t

/-- No packet is due at the last tick there is, and no packet has been enqueued for the send event
while one is being sent that is then rejected. -/
def Undisturbed (s : Watch) : Move → Prop
  | .schedSendTiming _ tick _ => tick ≠ maxTick
  | .sendTiming false => s.trace.queue.sendEvent = none
  | _ => True

structure Inv (s : Watch) : Prop where
  kept : s.trace.Kept
  ticks : ∀ dp ∈ s.trace.queue.sending.toList ++ s.trace.queue.transmitList, dp.tick ≠ maxTick
  event : ∀ w ∈ s.trace.queue.sendEvent, s.trace.queue.waitingOnRetry = false ∧
    ∃ dp ∈ s.trace.queue.transmitList.head?, w ≤ max dp.tick (s.scheduledAt + 1)
  idle : s.trace.queue.sending = none → s.trace.queue.transmitList ≠ [] →
    s.trace.queue.waitingOnRetry = true ∨ s.trace.queue.sendEvent.isSome = true

theorem wakeAt_eq (q : PacketQueue) (tick : Nat) : q.wakeAt tick =
    { q with sendEvent := some (q.sendEvent.elim tick (min tick)) } := by
  unfold wakeAt
  cases hevent : q.sendEvent with
  | none => rfl
  | some w =>
    dsimp only [Option.elim]
    split
    · rw [Nat.min_eq_left (by omega)]
    · rw [Nat.min_eq_right (by omega), ← hevent]

variable {q : PacketQueue}

theorem schedSendEvent_of_not_waiting {tick : Nat} (hretry : q.waitingOnRetry = false)
    (htick : tick ≠ maxTick) : q.schedSendEvent tick = some
    (q.wakeAt (max tick (q.curTick + 1))) := by
  rw [schedSendEvent, hretry, if_neg Bool.false_ne_true, if_pos htick]

theorem sendDeferredPacket_isSome (hretry : q.waitingOnRetry = false)
    (hdue : q.deferredPacketReady = true) : q.sendDeferredPacket.isSome := by
  rw [sendDeferredPacket, hretry, hdue, if_neg (by simp)]
  cases hl : q.transmitList with
  | nil =>
    rw [deferredPacketReady, hl] at hdue
    cases hdue
  | cons x rest => rfl

variable {s s' : Watch} {dp : DeferredPacket}

theorem noted_same : s.noted s.trace.queue.sendEvent = s.scheduledAt := if_neg (by simp)

/-- An event that is scheduled for a packet, or was scheduled for it in time, is in time. -/
theorem noted_wakeAt {tick : Nat}
    (hold : ∀ w ∈ s.trace.queue.sendEvent, w ≤ max tick (s.scheduledAt + 1)) :
    s.trace.queue.sendEvent.elim (max tick (s.trace.queue.curTick + 1))
        (min (max tick (s.trace.queue.curTick + 1))) ≤
      max tick (s.noted (some (s.trace.queue.sendEvent.elim (max tick (s.trace.queue.curTick + 1))
        (min (max tick (s.trace.queue.curTick + 1))))) + 1) := by
  cases hevent : s.trace.queue.sendEvent with
  | none => simp [noted, hevent]
  | some w =>
    have hw := hold w hevent
    dsimp only [Option.elim]
    by_cases hlt : max tick (s.trace.queue.curTick + 1) < w
    · rw [min_eq_left hlt.le, noted, hevent, if_pos ⟨rfl, by simpa using hlt.ne⟩]
    · rw [min_eq_right (by omega), ← hevent, noted_same]
      exact hw

theorem Inv.schedSendTiming (h : Inv s)
    (hq : s.trace.queue.schedSendTiming dp = some q) (hdp : dp.tick ≠ maxTick) {t : Trace}
    (hkept : t.Kept) (ht : t.queue = q) : Inv ⟨t, s.noted q.sendEvent⟩ := by
  have hwakes := h.kept.wakes
  unfold PacketQueue.schedSendTiming at hq
  split at hq
  · cases hq
  split at hq
  · cases hq
  split_ifs at hq with hnil
  · have hretry : s.trace.queue.waitingOnRetry = false := by
      by_contra hretry
      obtain ⟨x, hx, -⟩ := deferredPacketReady_iff.mp (hwakes.waiting (by simpa using hretry))
      rw [hnil] at hx
      cases hx
    have hnone : s.trace.queue.sendEvent = none := by
      rw [eq_none_iff_forall_not_mem]
      intro w hw
      obtain ⟨-, x, hx, -⟩ := h.event w hw
      rw [hnil] at hx
      cases hx
    rw [schedSendEvent_of_not_waiting (q := { s.trace.queue with transmitList := [dp] }) hretry hdp,
      wakeAt_eq] at hq
    obtain rfl := some.inj hq
    refine ⟨hkept, ?_, fun w hw => ?_, fun _ _ => ?_⟩
    all_goals rw [ht]
    · intro x hx
      rcases mem_append.mp hx with hx | hx
      · exact h.ticks x (mem_append_left _ hx)
      · rwa [mem_singleton.mp hx]
    · rw [ht] at hw
      obtain rfl := some.inj hw
      exact ⟨hretry, dp, rfl, noted_wakeAt (fun w hw => by rw [hnone] at hw; cases hw)⟩
    · exact .inr rfl
  · obtain rfl := some.inj hq
    have hhead := emplace_head dp hnil
    refine ⟨hkept, ?_, fun w hw => ?_, fun hsend _ => ?_⟩
    all_goals rw [ht] at *
    · intro x hx
      rcases mem_append.mp hx with hx | hx
      · exact h.ticks x (mem_append_left _ hx)
      · rcases mem_append.mp ((emplace_perm dp _).mem_iff.mp hx) with hx | hx
        · exact h.ticks x (mem_append_right _ hx)
        · rwa [mem_singleton.mp hx]
    · rw [noted_same, hhead]
      exact h.event w hw
    · exact h.idle hsend hnil

theorem Inv.sendReturned (h : Inv s) (hdp : s.trace.queue.sending = some dp)
    {accepted : Bool} (hq : s.trace.queue.sendReturned dp accepted = some q)
    (hnone : accepted = false → s.trace.queue.sendEvent = none) {t : Trace} (hkept : t.Kept)
    (ht : t.queue = q) : Inv ⟨t, s.noted q.sendEvent⟩ := by
  have hretry := (h.kept.wakes.sending dp hdp).1
  have hticks := h.ticks
  rw [hdp] at hticks
  cases accepted with
  | false =>
    obtain rfl := some.inj hq
    refine ⟨hkept, ?_, fun w hw => ?_, fun _ _ => .inl (by rw [ht])⟩
    all_goals rw [ht] at *
    · exact hticks
    · rw [hnone rfl] at hw
      cases hw
  | true =>
    cases hl : s.trace.queue.transmitList with
    | nil =>
      rw [PacketQueue.sendReturned, if_pos rfl, deferredPacketReadyTime, hl,
        PacketQueue.schedSendEvent,
        if_neg Bool.false_ne_true, if_neg (by simp)] at hq
      obtain rfl := some.inj hq
      refine ⟨hkept, ?_, fun w hw => ?_, fun _ hne => absurd ?_ hne⟩
      all_goals rw [ht] at *
      · exact fun x hx => (by cases hx)
      · obtain ⟨-, x, hx, -⟩ := h.event w hw
        rw [hl] at hx
        cases hx
    | cons x rest =>
      have hx : x.tick ≠ maxTick := hticks x (by rw [hl]; exact mem_cons_of_mem _ mem_cons_self)
      rw [PacketQueue.sendReturned, if_pos rfl, deferredPacketReadyTime, hl] at hq
      dsimp only at hq
      rw [schedSendEvent_of_not_waiting rfl hx, wakeAt_eq] at hq
      obtain rfl := some.inj hq
      refine ⟨hkept, ?_, fun w hw => ?_, fun _ _ => .inr (by rw [ht]; rfl)⟩
      all_goals rw [ht] at *
      · exact fun y hy => hticks y (by rw [hl]; exact mem_append_right _ hy)
      obtain rfl := some.inj hw
      refine ⟨rfl, x, rfl, noted_wakeAt (fun w hw => ?_)⟩
      obtain ⟨-, y, hy, hle⟩ := h.event w hw
      rw [hl] at hy
      cases hy
      exact hle

theorem Inv.step (h : Inv s) (hmove : s.move m = some s') (hm : s.Undisturbed m) : Inv s' := by
  obtain ⟨t, ht, rfl⟩ := map_eq_some_iff.mp hmove
  have hkept := h.kept.move ht
  cases m with
  | schedSendTiming addr tick forceOrder =>
    obtain ⟨q, hq, rfl⟩ := map_eq_some_iff.mp ht
    exact h.schedSendTiming hq hm hkept rfl
  | processSendEvent =>
    simp only [PacketQueue.move] at ht
    split_ifs at ht
    obtain ⟨q, hq, rfl⟩ := map_eq_some_iff.mp ht
    obtain ⟨-, dp, rest, hl, -, rfl⟩ := processSendEvent_eq hq
    refine ⟨hkept, fun x hx => h.ticks x ?_, fun w hw => (by cases hw), fun hno => (by cases hno)⟩
    rw [hl]
    exact mem_append_right _ hx
  | retry =>
    simp only [PacketQueue.move] at ht
    split_ifs at ht
    obtain ⟨q, hq, rfl⟩ := map_eq_some_iff.mp ht
    obtain ⟨hretry, dp, rest, hl, -, rfl⟩ := retry_eq hq
    refine ⟨hkept, fun x hx => h.ticks x ?_, fun w hw => ?_, fun hno => (by cases hno)⟩
    · rw [hl]
      exact mem_append_right _ hx
    · cases (h.event w hw).1.symm.trans hretry
  | sendTiming accepted =>
    simp only [PacketQueue.move] at ht
    split at ht
    · cases ht
    · rename_i dp hdp
      obtain ⟨q, hq, rfl⟩ := map_eq_some_iff.mp ht
      exact h.sendReturned hdp hq (fun hno => by subst hno; exact hm) hkept rfl
  | advance tick =>
    simp only [PacketQueue.move] at ht
    split_ifs at ht
    obtain rfl := some.inj ht
    refine ⟨hkept, h.ticks, fun w hw => ?_, h.idle⟩
    dsimp only
    rw [noted_same]
    exact h.event w hw

theorem inv_of_reachable (h : (machine.restrict Undisturbed).Reachable s) : Inv s := by
  refine h.invariant (fun s hs => ?_) (fun _ _ _ hi hs => hi.step hs.1 hs.2)
  refine ⟨.of_reachable (.start hs), ?_, ?_, ?_⟩
  all_goals
    obtain ⟨tick, disableSanityCheck, heq⟩ := hs
    rw [heq]
  · exact nofun
  · exact nofun
  · exact fun _ hne => absurd rfl hne

/-- Between events, a queue that is not empty waits for a retry or has its send event scheduled,
and not both. The event is in time for the first packet, and neither it nor a retry fails an
assertion. -/
theorem never_sleeps (h : (machine.restrict Undisturbed).Reachable s)
    (hidle : s.trace.queue.sending = none) :
    (s.trace.queue.transmitList ≠ [] →
      Xor (s.trace.queue.waitingOnRetry = true) (s.trace.queue.sendEvent.isSome = true)) ∧
    (∀ w ∈ s.trace.queue.sendEvent, ∃ dp ∈ s.trace.queue.transmitList.head?,
      w ≤ max dp.tick (s.scheduledAt + 1)) ∧
    (s.trace.queue.sendEvent = some s.trace.queue.curTick → s.trace.queue.processSendEvent.isSome) ∧
    (s.trace.queue.waitingOnRetry = true → s.trace.queue.retry.isSome) := by
  have hs := inv_of_reachable h
  refine ⟨fun hne => ?_, fun w hw => (hs.event w hw).2, fun hevent => ?_, fun hretry => ?_⟩
  · cases hretry : s.trace.queue.waitingOnRetry with
    | true =>
      refine .inl ⟨rfl, fun hsome => ?_⟩
      obtain ⟨w, hw⟩ := isSome_iff_exists.mp hsome
      cases (hs.event w hw).1.symm.trans hretry
    | false => exact .inr ⟨(hs.idle hidle hne).resolve_left (by simp [hretry]), by simp⟩
  · have hretry := (hs.event _ hevent).1
    have hdue : s.trace.queue.deferredPacketReady = true := by
      obtain ⟨x, hx, hle⟩ := hs.kept.wakes.event _ hevent
      rw [awaiting, hretry] at hx
      exact deferredPacketReady_iff.mpr ⟨x, hx, hle⟩
    rw [PacketQueue.processSendEvent, hretry, if_neg Bool.false_ne_true]
    exact sendDeferredPacket_isSome rfl hdue
  · rw [PacketQueue.retry, if_pos hretry]
    exact sendDeferredPacket_isSome rfl (hs.kept.wakes.waiting hretry)

instance (s : Watch) : (m : Move) → Decidable (s.Undisturbed m)
  | .schedSendTiming _ tick _ => inferInstanceAs (Decidable (tick ≠ maxTick))
  | .sendTiming false => inferInstanceAs (Decidable (s.trace.queue.sendEvent = none))
  | .sendTiming true | .processSendEvent | .retry | .advance _ => inferInstanceAs (Decidable True)

/-- A packet that is rejected, and one behind it. -/
theorem never_sleeps_rejected : ∃ s, (machine.restrict Undisturbed).Reachable s ∧
    s.trace.queue.transmitList.length = 2 ∧ s.trace.queue.retry.isSome := by
  obtain ⟨s, hr, hlength, hidle, hretry⟩ := Machine.exists_run
    (Machine.restrict_step (M := machine) (f := move) (fun _ _ _ h => h) Undisturbed)
    (.start (s := ⟨fresh 0 false, 0⟩) ⟨0, false, rfl⟩) [.schedSendTiming 64 0 false,
      .schedSendTiming 128 3 false, .advance 1, .processSendEvent, .sendTiming false]
    (P := fun s => s.trace.queue.transmitList.length = 2 ∧ s.trace.queue.sending = none ∧
      s.trace.queue.waitingOnRetry = true) (by decide)
  exact ⟨s, hr, hlength, (never_sleeps hr hidle).2.2.2 hretry⟩

/-- A packet is enqueued from inside `sendTiming`, which then rejects the one being sent: the queue
waits for a retry and has the event scheduled, and the event fails its assertion. And a packet that
is due at the last tick is never sent. -/
theorem event_while_waiting :
    (∃ s, machine.Reachable s ∧ s.trace.queue.sending = none ∧ s.trace.queue.transmitList ≠ [] ∧
      s.trace.queue.waitingOnRetry = true ∧ s.trace.queue.sendEvent = some s.trace.queue.curTick ∧
      s.trace.queue.processSendEvent = none) ∧
    (∃ s, machine.Reachable s ∧ s.trace.queue.sending = none ∧ s.trace.queue.transmitList ≠ [] ∧
      s.trace.queue.waitingOnRetry = false ∧ s.trace.queue.sendEvent = none) := by
  constructor
  · exact Machine.exists_run (M := machine) (f := move) (fun _ _ _ h => h)
      (.start (s := ⟨fresh 0 false, 0⟩) ⟨0, false, rfl⟩) [.schedSendTiming 64 0 false, .advance 1,
        .processSendEvent, .schedSendTiming 128 5 false, .sendTiming false, .advance 5] (by decide)
  · exact Machine.exists_run (M := machine) (f := move) (fun _ _ _ h => h)
      (.start (s := ⟨fresh 0 false, 0⟩) ⟨0, false, rfl⟩) [.schedSendTiming 64 maxTick false]
      (by decide)

end Watch

end Gem5.Mem.PacketQueue
