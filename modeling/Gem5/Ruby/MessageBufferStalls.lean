import Gem5.Lib.SortedMap
import Gem5.Ruby.MessageBufferOrder

namespace Gem5.Ruby.MessageBuffer

open Lib Lib.SortedMap Option

/-- The messages that a stall map has for an address. -/
def listOf (addr : Nat) (stalled : List (Nat × List Message)) : List Message :=
  (lookup addr stalled).getD []

theorem stalledOn_eq (b : MessageBuffer) (addr : Nat) :
    b.stalledOn addr = listOf addr b.stallMsgMap := rfl

theorem listOf_cons (addr a : Nat) (ms : List Message) (rest : List (Nat × List Message)) :
    listOf addr ((a, ms) :: rest) = if a = addr then ms else listOf addr rest := by
  unfold listOf
  rw [lookup_cons]
  split <;> rfl

/-- A stall map: its addresses go up, and it has no empty lists. -/
structure Stalls (stalled : List (Nat × List Message)) : Prop where
  keys : Ascending stalled
  nonempty : ∀ e ∈ stalled, e.2 ≠ []

theorem Stalls.tail (h : Stalls (e :: rest)) : Stalls rest :=
  ⟨h.keys.tail, fun f hf => h.nonempty f (.tail _ hf)⟩

theorem Stalls.listOf_ne_nil (h : Stalls stalled)
    (hmem : stalled.any (fun e => e.1 = addr) = true) : listOf addr stalled ≠ [] := by
  obtain ⟨e, he, haddr⟩ := List.any_eq_true.mp hmem
  have haddr : e.1 = addr := of_decide_eq_true haddr
  unfold listOf
  rw [← haddr, h.keys.lookup_of_mem he]
  exact h.nonempty e he

theorem pushStalled_eq (addr : Nat) (m : Message) (stalled : List (Nat × List Message)) :
    pushStalled addr m stalled = upsert addr (fun ms => ms.getD [] ++ [m]) stalled := by
  induction stalled with
  | nil => rfl
  | cons e rest ih =>
    unfold pushStalled upsert
    rw [ih]
    rfl

theorem Stalls.push (h : Stalls stalled) : Stalls (pushStalled addr m stalled) := by
  rw [pushStalled_eq]
  refine ⟨h.keys.upsert, fun e he => ?_⟩
  rcases h.keys.mem_upsert he with he | he
  · rw [he]
    exact List.append_ne_nil_of_right_ne_nil _ (List.cons_ne_nil _ _)
  · exact h.nonempty e he

theorem listOf_pushStalled (h : Stalls stalled) (addr a : Nat) :
    listOf a (pushStalled addr m stalled) =
      if addr = a then listOf a stalled ++ [m] else listOf a stalled := by
  unfold listOf
  rw [pushStalled_eq, h.keys.lookup_upsert]
  split_ifs with heq
  · rw [heq]
    rfl
  · rfl

theorem flatten_pushStalled (addr : Nat) (m : Message) (stalled : List (Nat × List Message)) :
    ((pushStalled addr m stalled).map Prod.snd).flatten.Perm
      (m :: (stalled.map Prod.snd).flatten) := by
  induction stalled with
  | nil => exact .refl _
  | cons f rest ih =>
    obtain ⟨a, ms⟩ := f
    unfold pushStalled
    split
    · simp only [List.map_cons, List.flatten_cons, List.append_assoc, List.singleton_append]
      exact List.perm_middle
    · split
      · exact .refl _
      · simp only [List.map_cons, List.flatten_cons]
        exact (ih.append_left ms).trans List.perm_middle

theorem Stalls.erase (h : Stalls stalled) (addr : Nat) : Stalls (erase addr stalled) :=
  ⟨h.keys.erase addr, fun e he => h.nonempty e (List.mem_of_mem_filter he)⟩

theorem listOf_erase (addr a : Nat) (stalled : List (Nat × List Message)) :
    listOf a (erase addr stalled) = if addr = a then [] else listOf a stalled := by
  unfold listOf
  rw [lookup_erase]
  split <;> rfl

theorem flatten_erase (h : Stalls stalled) (addr : Nat) : (stalled.map Prod.snd).flatten.Perm
      (listOf addr stalled ++ ((erase addr stalled).map Prod.snd).flatten) := by
  induction stalled with
  | nil => exact .refl _
  | cons f rest ih =>
    obtain ⟨a, ms⟩ := f
    have hlt := (List.pairwise_cons.mp h.keys).1
    unfold erase at ih ⊢
    rw [List.filter_cons, listOf_cons, List.map_cons, List.flatten_cons]
    by_cases ha : a = addr
    · -- the addresses behind are higher, so the filter keeps all of them
      have hall : rest.filter (fun e => e.1 ≠ addr) = rest := by
        refine List.filter_eq_self.mpr (fun e he => ?_)
        have := hlt e he
        simp only [ne_eq, decide_not, Bool.not_eq_true', decide_eq_false_iff_not]
        omega
      rw [if_pos ha, if_neg (by simpa using ha), hall]
    · rw [if_neg ha, if_pos (by simpa using ha), List.map_cons, List.flatten_cons]
      refine ((ih h.tail).append_left ms).trans ?_
      rw [← List.append_assoc, ← List.append_assoc]
      exact List.perm_append_comm.append_right _

/-- What can be seen of the messages of a buffer from outside. -/
inductive Event
  | enqueued (id : Nat)
  | dequeued (id : Nat)
  | stalled (addr id : Nat)
  | woken (addr : Nat)
  | allWoken

def Op.events (b : MessageBuffer) : Op → List Event
  | .enqueue m _ _ => [.enqueued m.id]
  | .dequeue => (b.prioHeap.head?.map (fun m => .dequeued m.id)).toList
  | .stallMessage addr => (b.prioHeap.head?.map (fun m => .stalled addr m.id)).toList
  | .reanalyzeMessages addr => [.woken addr]
  | .reanalyzeAllMessages => [.allWoken]
  | .recycle _ | .delayHead .. => []

/-- Calls from a given state on, with what was seen so far, newest first. -/
def recordedFrom (start : Clocked × List Event) : Machine (Clocked × List Event) (Nat × Op) where
  init p := p = start
  step p call p' := p.1.now ≤ call.1 ∧ p'.1.now = call.1 ∧
    call.2.apply p.1.buffer call.1 = some p'.1.buffer ∧ p'.2 = call.2.events p.1.buffer ++ p.2

def recorded (maxSize : Nat) (strictFifo randomized : Bool) :
    Machine (Clocked × List Event) (Nat × Op) :=
  recordedFrom (⟨{ maxSize, strictFifo, randomized }, 0⟩, [])

def record (p : Clocked × List Event) (call : Nat × Op) : Option (Clocked × List Event) :=
  (p.1.call call).map (fun s => (s, call.2.events p.1.buffer ++ p.2))

theorem record_step (start p : Clocked × List Event) (call : Nat × Op)
    (p' : Clocked × List Event) (h : record p call = some p') :
    (recordedFrom start).step p call p' := by
  obtain ⟨s, hs, rfl⟩ := map_eq_some_iff.mp h
  obtain ⟨ht, hnow, happ⟩ := Clocked.call_step 0 false false _ _ _ hs
  exact ⟨ht, hnow, happ, rfl⟩

/-- The messages stalled on an address and not woken since, in the order of stalling. -/
def stallOrder (addr : Nat) : List Event → List Nat
  | [] => []
  | .stalled a id :: log => if a = addr then stallOrder addr log ++ [id] else stallOrder addr log
  | .woken a :: log => if a = addr then [] else stallOrder addr log
  | .allWoken :: _ => []
  | .enqueued _ :: log | .dequeued _ :: log => stallOrder addr log

def given : List Event → List Nat
  | [] => []
  | .enqueued id :: log => id :: given log
  | .dequeued _ :: log | .stalled .. :: log | .woken _ :: log | .allWoken :: log => given log

def taken : List Event → List Nat
  | [] => []
  | .dequeued id :: log => id :: taken log
  | .enqueued _ :: log | .stalled .. :: log | .woken _ :: log | .allWoken :: log => taken log

def ids (b : MessageBuffer) : List Nat :=
  b.prioHeap.map Message.id ++ b.allStalled.map Message.id

/-- What a record says of a buffer. -/
structure Accounted (b : MessageBuffer) (log : List Event) : Prop where
  stalls : Stalls b.stallMsgMap
  order : ∀ addr, (b.stalledOn addr).map Message.id = stallOrder addr log
  conserved : (b.ids ++ taken log).Perm (given log)

variable {b b' : MessageBuffer} {log : List Event} {m : Message} {start p : Clocked × List Event}

theorem enqueue_spec {t delta : Nat} {c : Chance} (hb : b.enqueue m t delta c = some b') :
    (b'.prioHeap.map Message.id).Perm (m.id :: b.prioHeap.map Message.id) ∧
      b'.stallMsgMap = b.stallMsgMap := by
  unfold enqueue at hb
  dsimp only at hb
  split at hb
  · cases hb
  obtain ⟨m', hm', rfl⟩ := map_eq_some_iff.mp hb
  refine ⟨?_, rfl⟩
  have hid : m'.id = m.id := by
    unfold Message.updateDelayedTicks at hm'
    split at hm'
    · cases hm'
      rfl
    · cases hm'
  rw [← hid]
  exact (perm_pushHeap _ _).map Message.id

variable {t : Nat}

theorem dequeue_spec (hb : b.dequeue t = some (m, b')) :
    ∃ front, b.prioHeap = front :: b'.prioHeap ∧ m.id = front.id ∧
      b'.stallMsgMap = b.stallMsgMap := by
  unfold dequeue at hb
  split at hb
  · cases hb
  rename_i front rest hheap
  obtain ⟨m', hm', heq⟩ := map_eq_some_iff.mp hb
  cases heq
  refine ⟨front, hheap, ?_, ?_⟩
  · unfold Message.updateDelayedTicks at hm'
    split at hm'
    · cases hm'
      rfl
    · cases hm'
  · show (b.notePop t).stallMsgMap = b.stallMsgMap
    unfold notePop
    split <;> rfl

theorem Accounted.of_heap (h : Accounted b log) (hmap : b'.stallMsgMap = b.stallMsgMap)
    (hheap : (b'.prioHeap.map Message.id).Perm (b.prioHeap.map Message.id)) :
    Accounted b' log := by
  have hall : b'.allStalled = b.allStalled := by rw [allStalled, allStalled, hmap]
  refine ⟨hmap ▸ h.stalls, fun addr => ?_, ?_⟩
  · rw [stalledOn_eq, hmap]
    exact h.order addr
  · refine List.Perm.trans ?_ h.conserved
    rw [ids, ids, hall]
    exact (hheap.append_right _).append_right _

theorem Accounted.enqueue {t delta : Nat}
    {c : Chance} (h : Accounted b log) (hb : b.enqueue m t delta c = some b') :
    Accounted b' (.enqueued m.id :: log) := by
  obtain ⟨hheap, hmap⟩ := enqueue_spec hb
  refine ⟨hmap ▸ h.stalls, fun addr => ?_, ?_⟩
  · rw [stalledOn_eq, hmap]
    exact h.order addr
  · rw [ids, allStalled, hmap]
    exact ((hheap.append_right _).append_right _).trans (h.conserved.cons m.id)

theorem Accounted.dequeue (h : Accounted b log) (hb : b.dequeue t = some (m, b')) :
    Accounted b' (Op.dequeue.events b ++ log) := by
  obtain ⟨front, hheap, _, hmap⟩ := dequeue_spec hb
  have hev : Op.dequeue.events b = [.dequeued front.id] := by simp only [Op.events, hheap]; rfl
  rw [hev, List.singleton_append]
  refine ⟨hmap ▸ h.stalls, fun addr => ?_, ?_⟩
  · rw [stalledOn_eq, hmap]
    exact h.order addr
  · have hcons := h.conserved
    rw [ids, hheap, List.map_cons] at hcons
    rw [ids, allStalled, hmap, taken]
    exact List.perm_middle.trans hcons

theorem Accounted.stallMessage {addr t : Nat}
    (h : Accounted b log) (hb : b.stallMessage addr t = some b') :
    Accounted b' ((Op.stallMessage addr).events b ++ log) := by
  obtain ⟨⟨m, b₁⟩, hd, rfl⟩ := map_eq_some_iff.mp hb
  obtain ⟨front, hheap, hid, hmap⟩ := dequeue_spec hd
  have hev : (Op.stallMessage addr).events b = [.stalled addr front.id] := by
    simp only [Op.events, hheap]
    rfl
  rw [hev, List.singleton_append]
  dsimp only
  rw [hmap]
  refine ⟨h.stalls.push, fun a => ?_, ?_⟩
  · have horder := h.order a
    rw [stalledOn_eq] at horder ⊢
    rw [listOf_pushStalled h.stalls, stallOrder, ← horder, ← hid]
    split
    · exact List.map_append
    · rfl
  · have hcons := h.conserved
    rw [ids, hheap, List.map_cons, ← hid] at hcons
    have hflat := (flatten_pushStalled addr m b.stallMsgMap).map Message.id
    refine List.Perm.trans ?_ hcons
    rw [ids]
    exact ((hflat.append_left _).trans List.perm_middle).append_right _

/-- Messages come back from the stall map: `ms` of them, in a new map `stalled`. -/
theorem Accounted.reanalyze (t : Nat) (h : Accounted b log) (hstalls : Stalls stalled)
    (hflat : b.allStalled.Perm (ms ++ (stalled.map Prod.snd).flatten))
    (horder : ∀ addr, (listOf addr stalled).map Message.id = stallOrder addr (e :: log))
    (hgiven : given (e :: log) = given log) (htaken : taken (e :: log) = taken log) :
    Accounted { reanalyzeList t ms b with stallMsgMap := stalled } (e :: log) := by
  refine ⟨hstalls, horder, ?_⟩
  rw [hgiven, htaken]
  refine List.Perm.trans (List.Perm.append_right _ ?_) h.conserved
  have hheap := (perm_reanalyzeList t ms b).map Message.id
  rw [List.map_append, map_id_woken] at hheap
  have hflat := hflat.map Message.id
  rw [List.map_append] at hflat
  rw [ids, ids]
  refine (hheap.append_right _).trans (List.Perm.trans ?_ (hflat.symm.append_left _))
  rw [← List.append_assoc]
  exact List.perm_append_comm.append_right _

/-- No call loses a message. -/
theorem Accounted.apply {op : Op}
    (h : Accounted b log) (hb : op.apply b t = some b') : Accounted b' (op.events b ++ log) := by
  cases op with
  | enqueue m delta c => exact h.enqueue hb
  | dequeue =>
    obtain ⟨⟨m, _⟩, hd, rfl⟩ := map_eq_some_iff.mp hb
    exact h.dequeue hd
  | recycle latency =>
    simp only [Op.apply, recycle] at hb
    split at hb
    · cases hb
    rename_i node rest hheap
    split_ifs at hb
    cases hb
    refine h.of_heap rfl ?_
    rw [hheap]
    exact (perm_pushHeap _ rest).map Message.id
  | delayHead delta c =>
    simp only [Op.apply, delayHead] at hb
    split at hb
    · cases hb
    · rename_i m rest hheap
      obtain ⟨hperm, hmap⟩ := enqueue_spec hb
      refine h.of_heap hmap ?_
      rw [hheap]
      exact hperm
  | stallMessage addr => exact h.stallMessage hb
  | reanalyzeMessages addr =>
    simp only [Op.apply, reanalyzeMessages] at hb
    split_ifs at hb
    cases hb
    refine h.reanalyze t (h.stalls.erase addr) (flatten_erase h.stalls addr) ?_ rfl rfl
    intro a
    show (listOf a (erase addr b.stallMsgMap)).map Message.id = _
    rw [listOf_erase, stallOrder, ← h.order a, stalledOn_eq]
    split <;> rfl
  | reanalyzeAllMessages =>
    cases hb
    refine h.reanalyze t ⟨.nil, fun e he => by cases he⟩ ?_ (fun a => rfl) rfl rfl
    rw [List.map_nil, List.flatten_nil, List.append_nil]

/-- The messages that a wakeup brings back, as they are in the heap afterwards. -/
def awake (s : Clocked) (addr t : Nat) : List Message :=
  woken t s.buffer.msgCounter (s.buffer.stalledOn addr)

def later (start : Clocked × List Event) : Machine (Clocked × List Event) (Nat × Op) :=
  (recordedFrom start).restrict (fun _ call => call.2.Delays)

/-- `reanalyzeMessages` in state `s` gives the buffer `b`: the messages stalled on the
address come back, all of them and no other, and keep the order of stalling; in the heap
nothing that is due at the time of the call or later gets in front of them. No later call
loses a message or makes a second one of it. -/
structure KeepPlace (s : Clocked) (log : List Event) (addr t : Nat) (b : MessageBuffer) : Prop where
  order : (awake s addr t).map Message.id = stallOrder addr log
  heap : b.prioHeap.Perm (awake s addr t ++ s.buffer.prioHeap)
  rest : ∀ a, b.stalledOn a = if addr = a then [] else s.buffer.stalledOn a
  placed : ∀ s' log', (later (⟨b, t⟩, .woken addr :: log)).Reachable (s', log') →
    Placed t (awake s addr t) s'.buffer.prioHeap
  conserved : ∀ s' log', (later (⟨b, t⟩, .woken addr :: log)).Reachable (s', log') →
    (s'.buffer.ids ++ taken log').Perm (given log')

instance (time : Nat) (awake heap : List Message) : Decidable (Placed time awake heap) :=
  inferInstanceAs (Decidable (List.Pairwise _ heap))

theorem recorded_invariant {maxSize : Nat} {strictFifo randomized : Bool}
    {p : Clocked × List Event} (hr : (recorded maxSize strictFifo randomized).Reachable p) :
    Ordered p.1.buffer.prioHeap p.1.buffer.msgCounter ∧ Accounted p.1.buffer p.2 := by
  refine hr.invariant
    (I := fun p => Ordered p.1.buffer.prioHeap p.1.buffer.msgCounter ∧ Accounted p.1.buffer p.2)
    ?_ ?_
  · intro p hp
    subst p
    exact ⟨⟨.nil, List.nodup_nil, nofun⟩,
      ⟨.nil, nofun⟩, fun addr => rfl, .refl _⟩
  · intro p call p' h hstep
    obtain ⟨_, _, happ, hlog⟩ := hstep
    rw [hlog]
    exact ⟨h.1.apply happ, h.2.apply happ⟩

theorem later_invariant (hnow : start.1.now = t)
    (hbehind : Behind t ms start.1.buffer.prioHeap start.1.buffer.msgCounter)
    (hr : (later start).Reachable p) :
    Behind t ms p.1.buffer.prioHeap p.1.buffer.msgCounter := by
  have h : t ≤ p.1.now ∧ Behind t ms p.1.buffer.prioHeap p.1.buffer.msgCounter := by
    refine hr.invariant
      (I := fun p => t ≤ p.1.now ∧ Behind t ms p.1.buffer.prioHeap p.1.buffer.msgCounter) ?_ ?_
    · intro p hp
      rw [show p = start from hp]
      exact ⟨hnow.symm.le, hbehind⟩
    · intro p call p' h hstep
      obtain ⟨⟨ht, hnow, happ, _⟩, hdelays⟩ := hstep
      have ht := h.1.trans ht
      exact ⟨hnow ▸ ht, h.2.apply ht hdelays happ⟩
  exact h.2

theorem later_accounted (h : Accounted start.1.buffer start.2)
    (hr : (later start).Reachable p) : Accounted p.1.buffer p.2 := by
  refine hr.invariant (I := fun p => Accounted p.1.buffer p.2) ?_ ?_
  · intro p hp
    rwa [show p = start from hp]
  · intro p call p' h hstep
    obtain ⟨⟨_, _, happ, hlog⟩, _⟩ := hstep
    rw [hlog]
    exact h.apply happ

theorem pairwise_either {R : Message → Message → Prop} {l : List Message} (h : l.Pairwise R)
    {x y : Message} (hx : x ∈ l) (hy : y ∈ l) (hne : x ≠ y) : R x y ∨ R y x := by
  induction h with
  | nil => cases hx
  | cons hfirst _ ih =>
    rcases List.mem_cons.mp hx with hx | hx
    · rcases List.mem_cons.mp hy with hy | hy
      · exact absurd (hx.trans hy.symm) hne
      · exact .inl (hx ▸ hfirst y hy)
    · rcases List.mem_cons.mp hy with hy | hy
      · exact .inr (hy ▸ hfirst x hx)
      · exact ih hx hy

/-- If a message is already due at the time of the wakeup, it is in front of the messages
that come back. -/
theorem Placed.not_due {t c : Nat} {ms heap heap' : List Message} (hms : ms ≠ [])
    (hplaced : Placed t (woken t c ms) heap')
    (hord : heap'.Pairwise (fun x y => y.before x = false))
    (hle : ∀ m ∈ heap, m.msgCounter ≤ c) (hperm : heap'.Perm (woken t c ms ++ heap))
    (hm : m ∈ heap) : m.lastEnqueueTime ≠ t := by
  intro hdue
  obtain ⟨m₀, ms', rfl⟩ := List.exists_cons_of_ne_nil hms
  obtain ⟨w, hw⟩ : ∃ w, w ∈ woken t c (m₀ :: ms') := ⟨_, List.mem_cons_self⟩
  obtain ⟨hwt, hwc, _⟩ := mem_woken hw
  have hmc := hle m hm
  have hnot : m ∉ woken t c (m₀ :: ms') := by
    intro hmem
    have := (mem_woken hmem).2.1
    omega
  have hmem : m ∈ heap' := hperm.mem_iff.mpr (List.mem_append_right _ hm)
  have hwmem : w ∈ heap' := hperm.mem_iff.mpr (List.mem_append_left _ hw)
  rcases pairwise_either (hord.and hplaced) hmem hwmem (fun h => hnot (h ▸ hw)) with h | h
  · rcases h.2 hw with hlt | hsub
    · omega
    · exact hnot (hsub.subset List.mem_cons_self)
  · have := before_eq_false.mp h.1
    omega

/-- The messages stalled on an address keep their place exactly if, at the wakeup, no
message in the heap is due in that very cycle. -/
theorem keepPlace_iff {maxSize : Nat} {strictFifo randomized : Bool} {s : Clocked}
    {log : List Event} {addr t : Nat} {b : MessageBuffer}
    (hr : (recorded maxSize strictFifo randomized).Reachable (s, log)) (ht : s.now ≤ t)
    (hb : s.buffer.reanalyzeMessages addr t = some b) :
    KeepPlace s log addr t b ↔ ∀ m ∈ s.buffer.prioHeap, m.lastEnqueueTime ≠ t := by
  obtain ⟨hord, hacc⟩ := recorded_invariant hr
  have hr' : (recorded maxSize strictFifo randomized).Reachable (⟨b, t⟩, .woken addr :: log) :=
    hr.next (a := (t, .reanalyzeMessages addr)) ⟨ht, rfl, hb, rfl⟩
  obtain ⟨hord', hacc'⟩ := recorded_invariant hr'
  unfold reanalyzeMessages at hb
  split_ifs at hb with hstalled
  cases hb
  have hperm := perm_reanalyzeList t (s.buffer.stalledOn addr) s.buffer
  constructor
  · intro hkeep m hm
    exact Placed.not_due (hacc.stalls.listOf_ne_nil hstalled)
      (hkeep.placed _ _ (.start rfl)) hord'.sorted hord.le_counter hperm hm
  intro hdue
  have hbehind : Behind t (awake s addr t)
      (reanalyzeList t (s.buffer.stalledOn addr) s.buffer).prioHeap
      (reanalyzeList t (s.buffer.stalledOn addr) s.buffer).msgCounter := by
    refine ⟨hord', fun w hw => ?_, fun x hx hxt => ?_⟩
    · rw [msgCounter_reanalyzeList]
      exact (mem_woken hw).2.2
    · rcases List.mem_append.mp (hperm.mem_iff.mp hx) with hx | hx
      · exact .inl hx
      · exact absurd hxt (hdue x hx)
  exact {
    order := (map_id_woken _ _ _).trans (hacc.order addr)
    heap := hperm
    rest := fun a => listOf_erase addr a s.buffer.stallMsgMap
    placed := fun s' log' h => (later_invariant rfl hbehind h).placed
    conserved := fun s' log' h => (later_accounted hacc' h).conserved }

/-- A message comes back in front of one that is due two cycles later. -/
theorem keepPlace_before_later_message : ∃ s log b, (recorded 0 false false).Reachable (s, log) ∧
      s.buffer.reanalyzeMessages 64 3 = some b ∧ KeepPlace s log 64 3 b := by
  obtain ⟨⟨s, log⟩, hr, hnow, hsome, hdue⟩ := Machine.exists_run (M := recorded 0 false false)
    (record_step _) (.start rfl) [(1, .enqueue (Message.fresh 0) 1 Chance.none),
      (2, .stallMessage 64), (2, .enqueue (Message.fresh 1) 3 Chance.none)]
    (P := fun p => p.1.now ≤ 3 ∧ (p.1.buffer.reanalyzeMessages 64 3).isSome ∧
      ∀ m ∈ p.1.buffer.prioHeap, m.lastEnqueueTime ≠ 3) (by decide)
  obtain ⟨b, hb⟩ := isSome_iff_exists.mp hsome
  exact ⟨s, log, b, hr, hb, (keepPlace_iff hr hnow hb).mpr hdue⟩

/-- Message 0 is stalled, message 1 is due in the cycle in which 0 comes back: 1 is
dequeued first. -/
theorem message_due_now_overtakes :
    ∃ s log b, (recorded 0 false false).Reachable (s, log) ∧ s.now ≤ 3 ∧
      s.buffer.reanalyzeMessages 64 3 = some b ∧ b.prioHeap.map Message.id = [1, 0] ∧
      ¬KeepPlace s log 64 3 b := by
  obtain ⟨⟨s, log⟩, hr, hnow, hany⟩ := Machine.exists_run (M := recorded 0 false false)
    (record_step _) (.start rfl) [(1, .enqueue (Message.fresh 0) 1 Chance.none),
      (2, .stallMessage 64), (2, .enqueue (Message.fresh 1) 1 Chance.none)]
    (P := fun p => p.1.now ≤ 3 ∧ (p.1.buffer.reanalyzeMessages 64 3).any (fun b =>
      b.prioHeap.map Message.id = [1, 0] ∧ ¬Placed 3 (awake p.1 64 3) b.prioHeap)) (by decide)
  obtain ⟨b, hb, hplaced⟩ := (any_eq_true _ _).mp hany
  obtain ⟨hids, hplaced⟩ := of_decide_eq_true hplaced
  exact ⟨s, log, b, hr, hnow, hb, hids, fun hkeep => hplaced (hkeep.placed _ _ (.start rfl))⟩

/-- No call loses a message or makes a second one of it: what has been put in is in the heap,
stalled or taken out. The heap is in the order of the times, the messages stalled on an address in
that of the stalls. -/
theorem messages_conserved {maxSize : Nat} {strictFifo randomized : Bool} {s : Clocked}
    {log : List Event} (hr : (recorded maxSize strictFifo randomized).Reachable (s, log)) :
    (s.buffer.prioHeap.map Message.id ++ s.buffer.allStalled.map Message.id ++ taken log).Perm
      (given log) ∧
    s.buffer.prioHeap.Pairwise (fun x y => y.before x = false) ∧
    ∀ addr, (s.buffer.stalledOn addr).map Message.id = stallOrder addr log := by
  obtain ⟨hord, hacc⟩ := recorded_invariant hr
  exact ⟨hacc.conserved, hord.sorted, hacc.order⟩

/-- Of four messages two are stalled on one address, one is taken out and one is in the heap. -/
theorem messages_conserved_stalled : ∃ s log, (recorded 0 false false).Reachable (s, log) ∧
    s.buffer.prioHeap.map Message.id = [3] ∧ taken log = [2] ∧
    (s.buffer.stalledOn 64).map Message.id = stallOrder 64 log ∧ stallOrder 64 log = [0, 1] ∧
    ([3] ++ s.buffer.allStalled.map Message.id ++ [2]).Perm (given log) := by
  obtain ⟨⟨s, log⟩, hr, hheap, htaken, horder⟩ := Machine.exists_run (M := recorded 0 false false)
    (record_step _) (.start rfl)
    [(1, .enqueue (Message.fresh 0) 1 Chance.none), (1, .enqueue (Message.fresh 1) 1 Chance.none),
      (1, .enqueue (Message.fresh 2) 1 Chance.none), (1, .enqueue (Message.fresh 3) 1 Chance.none),
      (2, .stallMessage 64), (2, .stallMessage 64), (2, .dequeue)]
    (P := fun p => p.1.buffer.prioHeap.map Message.id = [3] ∧ taken p.2 = [2] ∧
      stallOrder 64 p.2 = [0, 1]) (by decide)
  obtain ⟨hperm, -, hstalled⟩ := messages_conserved hr
  rw [hheap, htaken] at hperm
  exact ⟨s, log, hr, hheap, htaken, hstalled 64, horder, hperm⟩

end Gem5.Ruby.MessageBuffer
