import Gem5.Ruby.MessageBuffer

namespace Gem5.Ruby.MessageBuffer

open Lib Option Message

@[simp] theorem length_pushHeap (m : Message) (xs : List Message) :
    (pushHeap m xs).length = xs.length + 1 := by
  induction xs with
  | nil => rfl
  | cons x xs ih =>
    rw [pushHeap]
    split
    · rfl
    · rw [List.length_cons, ih, List.length_cons]

/-- What senders see at time `now` is no less than what the buffer holds. -/
structure Covers (b : MessageBuffer) (now : Nat) : Prop where
  pop_le : b.timeLastTimePop ≤ now
  enqueue_le : b.timeLastTimeEnqueue ≤ now
  size : b.prioHeap.length ≤ b.currentSize now

theorem Covers.advance {now t : Nat} (h : Covers b now) (ht : now ≤ t) : Covers b t := by
  have hp := h.pop_le
  have he := h.enqueue_le
  have hs := h.size
  refine ⟨by omega, by omega, ?_⟩
  rcases lt_or_ge now t with hlt | hge
  · rw [currentSize, if_pos (by omega)]
  · rwa [show t = now by omega]

theorem Covers.enqueue (h : Covers b t) (he : b.enqueue m t delta c = some b') : Covers b' t := by
  have hp := h.pop_le
  have hq := h.enqueue_le
  have hs := h.size
  rw [MessageBuffer.enqueue] at he
  split at he
  · cases he
  obtain ⟨m', _, rfl⟩ := map_eq_some_iff.mp he
  refine ⟨hp, by simp [hq], ?_⟩
  simp only [currentSize, length_pushHeap] at hs ⊢
  split at hs
  · rename_i hlt
    rw [if_pos hlt]
  rename_i hge
  rw [if_neg hge, if_neg (by omega)]
  split_ifs at hs with hlt
  · rw [if_pos hlt]
    omega
  · rw [if_neg hlt]
    omega

/-- The size after the front message was taken out, which counts as a pop. -/
theorem Covers.pop {front : Message} (h : Covers b t) (hb : b.prioHeap = front :: rest) :
    Covers { b.notePop t with prioHeap := rest } t := by
  have hp := h.pop_le
  have hq := h.enqueue_le
  have hs := h.size
  have hlen : b.prioHeap.length = rest.length + 1 := by rw [hb]; rfl
  unfold notePop
  split_ifs with hlt
  · refine ⟨Nat.le_refl t, hq, ?_⟩
    simp only [currentSize, lt_irrefl, if_false]
    split <;> omega
  · refine ⟨hp, hq, ?_⟩
    simp only [currentSize, if_neg hlt] at hs ⊢
    omega

theorem Covers.dequeue (h : Covers b t) (hd : b.dequeue t = some r) : Covers r.2 t := by
  rw [MessageBuffer.dequeue] at hd
  split at hd
  · cases hd
  · rename_i front rest hb
    obtain ⟨m, _, rfl⟩ := map_eq_some_iff.mp hd
    exact h.pop hb

theorem Covers.recycle (h : Covers b t) (hr : b.recycle t latency = some b') : Covers b' t := by
  rw [MessageBuffer.recycle] at hr
  split at hr
  · cases hr
  rename_i node rest hb
  split_ifs at hr
  cases hr
  refine ⟨h.pop_le, h.enqueue_le, ?_⟩
  have hs := h.size
  simp only [currentSize, hb, length_pushHeap, List.length_cons] at hs ⊢
  exact hs

/-- Without its front message the buffer is smaller, and what senders see of it is
no smaller than before unless it is exact. -/
theorem Covers.delayHead (h : Covers b t) (hd : b.delayHead t delta c = some b') : Covers b' t := by
  rw [MessageBuffer.delayHead] at hd
  split at hd
  · cases hd
  rename_i m rest hb
  have hs := h.size
  have hrest : Covers { b with prioHeap := rest } t := by
    refine ⟨h.pop_le, h.enqueue_le, ?_⟩
    simp only [currentSize, hb, List.length_cons] at hs ⊢
    split at hs
    · rename_i hlt
      rw [if_pos hlt]
    · rename_i hge
      rw [if_neg hge]
      omega
  exact hrest.enqueue hd

theorem reanalyzeList_fields (t : Nat) (ms : List Message) (b : MessageBuffer) :
    (reanalyzeList t ms b).prioHeap.length = b.prioHeap.length + ms.length ∧
      (reanalyzeList t ms b).timeLastTimePop = b.timeLastTimePop ∧
      (reanalyzeList t ms b).timeLastTimeEnqueue = b.timeLastTimeEnqueue ∧
      (reanalyzeList t ms b).sizeAtCycleStart = b.sizeAtCycleStart ∧
      (reanalyzeList t ms b).msgsThisCycle = b.msgsThisCycle ∧
      (reanalyzeList t ms b).maxSize = b.maxSize := by
  induction ms generalizing b with
  | nil => exact ⟨rfl, rfl, rfl, rfl, rfl, rfl⟩
  | cons m ms ih =>
    rw [reanalyzeList]
    obtain ⟨hlen, hrest⟩ := ih _
    refine ⟨?_, hrest⟩
    rw [hlen, length_pushHeap, List.length_cons]
    omega

theorem Covers.reanalyze (h : Covers b t)
    (hroom : b.timeLastTimePop = t → b.prioHeap.length + ms.length ≤ b.currentSize t) :
    Covers { reanalyzeList t ms b with stallMsgMap := stalled } t := by
  obtain ⟨hlen, hpop, henq, hstart, hmsgs, _⟩ := reanalyzeList_fields t ms b
  have hp := h.pop_le
  refine ⟨by rw [hpop]; exact hp, by rw [henq]; exact h.enqueue_le, ?_⟩
  simp only [currentSize, hlen, hpop, henq, hstart, hmsgs]
  split
  · exact le_rfl
  · rename_i hge
    have hroom := hroom (by omega)
    rwa [currentSize, if_neg hge] at hroom

/-- What a call has to meet: messages are brought back in a cycle without a pop so
far, or there is room for them in the size that senders see. -/
def Roomy (s : Clocked) : Nat × Op → Prop
  | (t, .reanalyzeMessages addr) => s.buffer.timeLastTimePop = t →
      s.buffer.prioHeap.length + (s.buffer.stalledOn addr).length ≤ s.buffer.currentSize t
  | (t, .reanalyzeAllMessages) => s.buffer.timeLastTimePop = t →
      s.buffer.prioHeap.length + s.buffer.allStalled.length ≤ s.buffer.currentSize t
  | _ => True

instance (s : Clocked) : (call : Nat × Op) → Decidable (Roomy s call)
  | (t, .reanalyzeMessages addr) => inferInstanceAs (Decidable (s.buffer.timeLastTimePop = t →
      s.buffer.prioHeap.length + (s.buffer.stalledOn addr).length ≤ s.buffer.currentSize t))
  | (t, .reanalyzeAllMessages) => inferInstanceAs (Decidable (s.buffer.timeLastTimePop = t →
      s.buffer.prioHeap.length + s.buffer.allStalled.length ≤ s.buffer.currentSize t))
  | (_, .enqueue ..) | (_, .dequeue) | (_, .recycle _) | (_, .delayHead ..)
  | (_, .stallMessage _) => inferInstanceAs (Decidable True)

theorem Covers.step {s s' : Clocked} {t : Nat} {op : Op} (h : Covers s.buffer s.now)
    (ht : s.now ≤ t) (happ : op.apply s.buffer t = some s'.buffer) (hc : Roomy s (t, op)) :
    Covers s'.buffer t := by
  have h := h.advance ht
  cases op with
  | enqueue m delta c => exact h.enqueue happ
  | dequeue =>
    obtain ⟨r, hr, heq⟩ := map_eq_some_iff.mp happ
    rw [← heq]
    exact h.dequeue hr
  | recycle latency => exact h.recycle happ
  | delayHead delta c => exact h.delayHead happ
  | stallMessage addr =>
    obtain ⟨r, hr, heq⟩ := map_eq_some_iff.mp happ
    rw [← heq]
    have hd := h.dequeue hr
    exact { hd with }
  | reanalyzeMessages addr =>
    simp only [Op.apply, reanalyzeMessages] at happ
    split_ifs at happ
    rw [← some.inj happ]
    exact h.reanalyze hc
  | reanalyzeAllMessages =>
    rw [← some.inj happ]
    exact h.reanalyze hc

/-- In every run that meets the condition, senders who ask for slots do not overfill
the buffer. -/
theorem available_has_room {maxSize : Nat} {strictFifo randomized : Bool} {s : Clocked}
    (hr : ((machine maxSize strictFifo randomized).restrict Roomy).Reachable s)
    {n t : Nat} (ht : s.now ≤ t) (hmax : s.buffer.maxSize ≠ 0)
    (hn : s.buffer.currentSize t + n < 2 ^ 32)
    (ha : (s.buffer.areNSlotsAvailable n t).1 = true) :
    s.buffer.prioHeap.length + n ≤ s.buffer.maxSize := by
  have hcov : Covers s.buffer s.now := by
    refine hr.invariant (I := fun s => Covers s.buffer s.now) ?_ ?_
    · rintro _ rfl
      exact ⟨le_rfl, le_rfl, Nat.zero_le _⟩
    · rintro s ⟨t, op⟩ s' h ⟨⟨ht, hnow, happ⟩, hc⟩
      rw [hnow]
      exact h.step ht happ hc
  have hsize := (hcov.advance ht).size
  rw [areNSlotsAvailable, if_neg hmax, Nat.mod_eq_of_lt hn] at ha
  split_ifs at ha
  omega

/-- A message that is stalled and brought back in a later cycle. -/
theorem available_has_room_woken :
    ∃ s : Clocked, ((machine 2 false false).restrict Roomy).Reachable s ∧
      (s.buffer.areNSlotsAvailable 1 3).1 = true ∧ s.buffer.prioHeap.length + 1 ≤ 2 := by
  obtain ⟨s, hr, hnow, hmax, hn, ha⟩ := Machine.exists_run
    (Machine.restrict_step (Clocked.call_step 2 false false) Roomy) (.start rfl)
    [(1, .enqueue (fresh 0) 1 Chance.none), (2, .stallMessage 64),
      (3, .reanalyzeMessages 64)] (P := fun s => s.now ≤ 3 ∧ s.buffer.maxSize = 2 ∧
      s.buffer.currentSize 3 + 1 < 2 ^ 32 ∧ (s.buffer.areNSlotsAvailable 1 3).1 = true) (by decide)
  exact ⟨s, hr, ha, hmax ▸ available_has_room hr hnow (by rw [hmax]; decide) hn ha⟩

/-- Two stalled messages come back after a pop in the same cycle: the buffer is full,
and a sender is told that there is a slot. -/
theorem full_buffer_reported_available :
    ∃ s : Clocked, (machine 3 false false).Reachable s ∧ s.now = 4 ∧
      (s.buffer.areNSlotsAvailable 1 4).1 = true ∧
      s.buffer.maxSize < s.buffer.prioHeap.length + 1 := by
  exact Machine.exists_run (Clocked.call_step 3 false false) (.start rfl)
    [(1, .enqueue (fresh 0) 1 Chance.none), (1, .enqueue (fresh 1) 1 Chance.none),
      (2, .stallMessage 64), (2, .stallMessage 64), (3, .enqueue (fresh 2) 1 Chance.none),
      (3, .enqueue (fresh 3) 1 Chance.none), (4, .dequeue), (4, .reanalyzeMessages 64)]
    (by decide)

end Gem5.Ruby.MessageBuffer
