import Gem5.Sim.EventQueueOps

namespace Gem5.Sim

open Lib List Option Heap

/-- What the simulator does to one queue and its events, one call at a time. A
call of `serviceOne` is two steps, `beginService` and `endService`, with the
calls made by `process()` between them. -/
inductive Op
  | construct (p : Priority) (f : Flags)
  | destroy (event : EventPtr)
  | setFlags (event : EventPtr) (f : Flags)
  | clearFlags (event : EventPtr) (f : Flags)
  | schedule (event : EventPtr) (when : Tick)
  | deschedule (event : EventPtr)
  | reschedule (event : EventPtr) (when : Tick) (always : Bool)
  | beginService
  | endService
deriving DecidableEq, Repr

namespace Op

def apply (s : State) : Op → Res State
  | construct p f => do
    check (Flags.noneSet f (~~~.PublicWrite))
    return { s with heap := s.heap.alloc (Event.make p f) }
  | destroy event => EventQueue.delete s event
  | setFlags event f => do
    check (Flags.noneSet f (~~~.PublicWrite))
    EventQueue.modify s event (fun e => { e with flags := Flags.set e.flags f })
  | clearFlags event f => do
    check (Flags.noneSet f (~~~.PublicWrite))
    EventQueue.modify s event (fun e => { e with flags := Flags.clear e.flags f })
  | schedule event when => EventQueue.schedule s event when
  | deschedule event => EventQueue.deschedule s event
  | reschedule event when always => EventQueue.reschedule s event when always
  | beginService => do
    check s.servicing.isNone
    EventQueue.beginService s
  | endService => do
    let (s, _) ← EventQueue.endService s
    return s

def applyAll (ops : List Op) (s : State) : Res State := ops.foldlM apply s

end Op

open Op

inductive Obs
  | inserted (event : EventPtr)
  | removed (event : EventPtr)
  | serviced (event : EventPtr)
deriving DecidableEq, Repr

def Heap.isScheduled (h : Heap) (p : EventPtr) : Bool := (h.get p).any Event.scheduled

/-- The queue events of a call that returns, newest first. -/
def Op.observe (s : State) : Op → List Obs
  | schedule event _ => [.inserted event]
  | deschedule event => [.removed event]
  | reschedule event _ _ =>
    if s.heap.isScheduled event then [.inserted event, .removed event] else [.inserted event]
  | beginService => (s.head.map Obs.serviced).toList
  | _ => []

/-- The system of one queue: it starts empty at time zero, and a step is a call
that returns, labelled with what it did to the queue. -/
def queueMachine : Lib.Machine State (List Obs) where
  init s := s.heap.get = (fun _ => none) ∧ s.head = none ∧ s.curTick = 0 ∧ s.servicing = none
  step s obs t := ∃ op : Op, op.apply s = .ok t ∧ obs = op.observe s

def State.initial (self : QueueId) : State :=
  { heap := Lib.Heap.empty, head := none, curTick := 0, self, servicing := none }

theorem check_eq_ok : check b = .ok u ↔ b = true := by
  cases b <;> simp [check]

theorem check_ok (h : b = true) : check b = .ok () := check_eq_ok.mpr h

variable {e : Event} {p : EventPtr}

theorem deref_eq_ok {h : Heap} : h.deref p = .ok e ↔ h.get p = some e := by
  unfold deref
  cases h.get p <;> simp

/-- `a` is to be serviced before `b`: a smaller key, or the same one and
inserted later. -/
def Before (h : Heap) (log : List Obs) (a b : EventPtr) : Prop :=
  h.key a < h.key b ∨ h.key a = h.key b ∧ log.idxOf (Obs.inserted a) < log.idxOf (Obs.inserted b)

/-- What ties the queue `q` in memory to the history of the calls. -/
structure Consistent (s : State) (log : List Obs) (q : List EventPtr) : Prop where
  queue : Queue s.heap s.head q
  order : q.Pairwise (Before s.heap log)
  owned : ∀ p ∈ q, ∀ e, s.heap.get p = some e → e.queue = some s.self ∧ s.curTick ≤ e.when
  counted : ∀ p, log.count (.inserted p) =
    log.count (.serviced p) + log.count (.removed p) + q.count p

/-- Every event in memory has gone through the constructor. -/
def Heap.Initialized (h : Heap) : Prop := ∀ p e, h.get p = some e → e.initialized = true

/-- Consistent, with the `Scheduled` flag set on exactly the events of the queue. -/
structure Settled (s : State) (log : List Obs) (q : List EventPtr) : Prop
    extends Consistent s log q where
  flagged : ∀ p, p ∈ q ↔ s.heap.isScheduled p = true
  initialized : s.heap.Initialized

theorem insertSorted_pairwise {R : EventPtr → EventPtr → Prop}
    (hs : q.Pairwise (fun a b => k a ≤ k b))
    (hq : q.Pairwise R) (hb : ∀ a ∈ q, k a < k p → R a p) (ha : ∀ b ∈ q, k p ≤ k b → R p b) :
    (insertSorted k p q).Pairwise R := by
  induction q with
  | nil => simp [insertSorted]
  | cons a q ih =>
    obtain ⟨hsa, hs⟩ := pairwise_cons.mp hs
    obtain ⟨hqa, hq'⟩ := pairwise_cons.mp hq
    simp only [insertSorted, List.orderedInsert]
    split_ifs with hle
    · refine pairwise_cons.mpr ⟨fun b hb => ha b hb ?_, hq⟩
      rcases mem_cons.mp hb with rfl | hb
      · exact hle
      · exact hle.trans (hsa b hb)
    · refine pairwise_cons.mpr ⟨fun b hmem => ?_,
        ih hs hq' (fun b hmem => hb b (by simp [hmem])) (fun b hmem => ha b (by simp [hmem]))⟩
      rcases mem_cons.mp ((perm_orderedInsert _ _ _).mem_iff.mp hmem) with rfl | hmem
      · exact hb a (by simp) (not_le.mp hle)
      · exact hqa b hmem

theorem Changed.get_other (c : Changed h h' p o) (hr : r ≠ p) (he : h'.get r = some e) :
    ∃ d, h.get r = some d ∧ d.body = e.body := by
  have hb := c.other r hr
  rw [he, map_some] at hb
  exact map_eq_some_iff.mp hb.symm

theorem Changed.initialized (c : Changed h h' p o) (hh : h.Initialized)
    (ho : ∀ e, o = some e → e.initialized = true) :
    h'.Initialized := by
  intro r e he
  obtain rfl | hr := eq_or_ne r p
  · have hs := c.self
    rw [he, map_some] at hs
    obtain ⟨d, hd, hbody⟩ := map_eq_some_iff.mp hs.symm
    rw [← ho d hd]
    exact Event.initialized_congr (by rw [Event.flags_of_body hbody])
  · obtain ⟨d, hd, hbody⟩ := c.get_other hr he
    rw [← hh r d hd]
    exact Event.initialized_congr (by rw [Event.flags_of_body hbody])

theorem Event.of_body {d e : Event} (hb : d.body = e.body) :
    e.queue = d.queue ∧ e.when = d.when ∧ e.scheduled = d.scheduled :=
  ⟨(congrArg Event.queue hb).symm, (congrArg Event.when hb).symm,
    (congrArg Event.scheduled hb).symm⟩

theorem Changed.isScheduled_other (c : Changed h h' p o) (hr : r ≠ p) :
    h'.isScheduled r = h.isScheduled r := by
  have hk (o : Option Event) : o.any Event.scheduled = (o.map Event.body).any Event.scheduled := by
    cases o <;> rfl
  unfold isScheduled
  rw [hk, c.other r hr, ← hk]

theorem Before.cons (hab : Before h log a b) (ha : h'.key a = h.key a) (hb : h'.key b = h.key b)
    (hxa : x ≠ .inserted a) (hxb : x ≠ .inserted b) : Before h' (x :: log) a b := by
  unfold Before
  rw [ha, hb, idxOf_cons_ne _ hxa, idxOf_cons_ne _ hxb]
  rcases hab with hlt | ⟨heq, hlt⟩
  · exact .inl hlt
  · exact .inr ⟨heq, Nat.succ_lt_succ hlt⟩

namespace Consistent

variable {s : State} {log : List Obs} {q : List EventPtr} {p : EventPtr} {h' : Heap}
  {head' : Option EventPtr}

/-- An event that is inserted comes before those of its time that were inserted before. -/
theorem insert (hc : Consistent s log q) (hn : p ∉ q)
    (hchg : Changed s.heap h' p (some e)) (hqueue : e.queue = some s.self)
    (hw : s.curTick ≤ e.when) (hq : Queue h' head' (insertSorted h'.key p q)) :
    Consistent { s with heap := h', head := head' } (.inserted p :: log)
      (insertSorted h'.key p q) := by
  have hne : ∀ r ∈ q, r ≠ p := fun r hr heq => hn (heq ▸ hr)
  have hkey : ∀ r ∈ q, h'.key r = s.heap.key r := fun r hr => hchg.key_other (hne r hr)
  have hidx : ∀ r, r ≠ p → (Obs.inserted p :: log).idxOf (.inserted r) =
      log.idxOf (.inserted r) + 1 :=
    fun r hr => idxOf_cons_ne _ (fun heq => hr (Obs.inserted.inj heq).symm)
  refine ⟨hq, insertSorted_pairwise ?_ ?_ ?_ ?_, ?_, ?_⟩
  · refine hc.queue.sorted.imp_of_mem ?_
    intro a b ha hb hab
    rw [hkey a ha, hkey b hb]
    exact hab
  · refine hc.order.imp_of_mem ?_
    intro a b ha hb hab
    exact hab.cons (hkey a ha) (hkey b hb) (fun heq => hne a ha (Obs.inserted.inj heq).symm)
      (fun heq => hne b hb (Obs.inserted.inj heq).symm)
  · exact fun a _ hlt => .inl hlt
  · intro b hb hle
    rcases hle.lt_or_eq with hlt | heq
    · exact .inl hlt
    · refine .inr ⟨heq, ?_⟩
      rw [idxOf_cons_self, hidx b (hne b hb)]
      exact Nat.succ_pos _
  · intro r hr e' he'
    rcases mem_cons.mp ((perm_orderedInsert _ _ _).mem_iff.mp hr) with rfl | hr
    · obtain ⟨d, hd, hbody⟩ := hchg.get
      obtain rfl := some.inj (he'.symm.trans hd)
      obtain ⟨hdq, hdw, _⟩ := Event.of_body hbody
      exact ⟨hdq ▸ hqueue, hdw ▸ hw⟩
    · obtain ⟨d, hd, hbody⟩ := hchg.get_other (hne r hr) he'
      obtain ⟨hdq, hdw, _⟩ := Event.of_body hbody
      rw [hdq, hdw]
      exact hc.owned r hr d hd
  · intro r
    have hcount := hc.counted r
    rw [(perm_orderedInsert _ _ _).count_eq]
    obtain rfl | hr := eq_or_ne r p
    · simp only [count_cons_self, count_cons_of_ne, ne_eq, reduceCtorEq, not_false_eq_true]
      omega
    · have hri : Obs.inserted p ≠ .inserted r := fun heq => hr (Obs.inserted.inj heq).symm
      rw [count_cons_of_ne hri, count_cons_of_ne (by simp),
        count_cons_of_ne (by simp), count_cons_of_ne (Ne.symm hr)]
      exact hcount

/-- The event at hand leaves the queue, by removal or to be serviced. -/
theorem erase (hc : Consistent s log q) (hm : p ∈ q) {o : Option Event}
    (hchg : Changed s.heap h' p o) {x : Obs} (hx : x = .removed p ∨ x = .serviced p)
    {tick : Tick} (htick : ∀ r ∈ q.erase p, ∀ e, s.heap.get r = some e → tick ≤ e.when)
    (servicing : Option EventPtr) (hq : Queue h' head' (q.erase p)) :
    Consistent { s with heap := h', head := head', curTick := tick, servicing := servicing }
      (x :: log) (q.erase p) := by
  have hne : ∀ r ∈ q.erase p, r ≠ p :=
    fun r hr heq => hc.queue.nodup.not_mem_erase (heq ▸ hr)
  have hxi : ∀ r, x ≠ .inserted r := by
    rintro r rfl
    rcases hx with hx | hx <;> cases hx
  refine ⟨hq, ?_, ?_, ?_⟩
  · refine (hc.order.sublist erase_sublist).imp_of_mem ?_
    intro a b ha hb hab
    exact hab.cons (hchg.key_other (hne a ha)) (hchg.key_other (hne b hb)) (hxi a) (hxi b)
  · intro r hr e' he'
    obtain ⟨d, hd, hbody⟩ := hchg.get_other (hne r hr) he'
    obtain ⟨hdq, hdw, _⟩ := Event.of_body hbody
    rw [hdq, hdw]
    exact ⟨(hc.owned r (mem_of_mem_erase hr) d hd).1, htick r hr d hd⟩
  · intro r
    have hcount := hc.counted r
    rw [count_cons_of_ne (hxi r)]
    obtain rfl | hr := eq_or_ne r p
    · have hone : q.count r = 1 := count_eq_one_of_mem hc.queue.nodup hm
      rw [count_erase_self, hone]
      rcases hx with rfl | rfl <;> simp <;> omega
    · have hxr : x ≠ .removed r ∧ x ≠ .serviced r := by
        rcases hx with rfl | rfl <;> simp [Ne.symm hr]
      rw [count_cons_of_ne hxr.2, count_cons_of_ne hxr.1, count_erase_of_ne hr]
      exact hcount

theorem relinked (hc : Consistent s log q) (hrel : Relinked s.heap h')
    (hq : Queue h' head' q) : Consistent { s with heap := h', head := head' } log q := by
  refine ⟨hq, ?_, ?_, hc.counted⟩
  · unfold Before
    rw [hrel.key]
    exact hc.order
  intro r hr e' he'
  obtain ⟨e, he⟩ := hc.queue.mem_get hr
  obtain ⟨d, hd, hbody⟩ := hrel.get he
  obtain rfl := some.inj (he'.symm.trans hd)
  obtain ⟨hdq, hdw, _⟩ := Event.of_body hbody
  rw [← hdq, ← hdw]
  exact hc.owned r hr e he

end Consistent

/-- The assertions a call makes before it changes anything. -/
def Op.Meets (s : State) : Op → Prop
  | construct _ f => f.noneSet (~~~.PublicWrite) = true
  | destroy event => ∃ e, s.heap.get event = some e ∧ e.scheduled = false
  | setFlags event f => f.noneSet (~~~.PublicWrite) = true ∧ ∃ e, s.heap.get event = some e
  | clearFlags event f => f.noneSet (~~~.PublicWrite) = true ∧ ∃ e, s.heap.get event = some e
  | schedule event when => s.curTick ≤ when ∧
      ∃ e, s.heap.get event = some e ∧ e.scheduled = false ∧ e.initialized = true
  | deschedule event => ∃ e, s.heap.get event = some e ∧ e.scheduled = true ∧ e.initialized = true
  | reschedule event when always => s.curTick ≤ when ∧
      ∃ e, s.heap.get event = some e ∧ (always || e.scheduled) = true ∧ e.initialized = true
  | beginService => s.servicing = none ∧ s.head ≠ none
  | endService => ∃ event e, s.servicing = some event ∧ s.heap.get event = some e ∧
      (e.isExitEvent = true → (!Flags.isSet e.flags .AutoDelete ||
        !Flags.isSet e.flags .IsMainQueue) = true)

variable {s t : State}

theorem Op.meets_of_ok {op : Op} (h : op.apply s = .ok t) : op.Meets s := by
  cases op with
  | construct p f =>
    simp only [apply, bind_eq_ok, check_eq_ok] at h
    exact h.choose_spec.1
  | destroy event =>
    simp only [apply, EventQueue.delete, bind_eq_ok, check_eq_ok, deref_eq_ok] at h
    obtain ⟨e, he, _, hs, _⟩ := h
    exact ⟨e, he, by simpa using hs⟩
  | setFlags event f =>
    simp only [apply, EventQueue.modify, bind_eq_ok, check_eq_ok, deref_eq_ok] at h
    obtain ⟨_, hf, e, he, _⟩ := h
    exact ⟨hf, e, he⟩
  | clearFlags event f =>
    simp only [apply, EventQueue.modify, bind_eq_ok, check_eq_ok, deref_eq_ok] at h
    obtain ⟨_, hf, e, he, _⟩ := h
    exact ⟨hf, e, he⟩
  | schedule event when =>
    simp only [apply, EventQueue.schedule, bind_eq_ok, check_eq_ok, deref_eq_ok] at h
    obtain ⟨_, hw, e, he, _, hs, _, hi, _⟩ := h
    exact ⟨by simpa using hw, e, he, by simpa using hs, hi⟩
  | deschedule event =>
    simp only [apply, EventQueue.deschedule, bind_eq_ok, check_eq_ok, deref_eq_ok] at h
    obtain ⟨e, he, _, hs, _, hi, _⟩ := h
    exact ⟨e, he, hs, hi⟩
  | reschedule event when always =>
    simp only [apply, EventQueue.reschedule, bind_eq_ok, check_eq_ok, deref_eq_ok] at h
    obtain ⟨_, hw, e, he, _, ha, _, hi, _⟩ := h
    exact ⟨by simpa using hw, e, he, ha, hi⟩
  | beginService =>
    simp only [apply, bind_eq_ok, check_eq_ok] at h
    obtain ⟨_, hs, hb⟩ := h
    refine ⟨by simpa using hs, fun hh => ?_⟩
    simp [EventQueue.beginService, hh] at hb
  | endService =>
    simp only [apply, bind_eq_ok] at h
    obtain ⟨_, h, _⟩ := h
    cases hsv : s.servicing with
    | none => simp [EventQueue.endService, hsv] at h
    | some event =>
      simp only [EventQueue.endService, hsv, bind_eq_ok, deref_eq_ok] at h
      obtain ⟨e, he, h⟩ := h
      refine ⟨event, e, hsv, he, fun hx => ?_⟩
      simp only [hx, if_true, bind_eq_ok, check_eq_ok] at h
      exact h.choose_spec.1

theorem Heap.isScheduled_of_get {h : Heap} (hp : h.get p = some e) :
    h.isScheduled p = e.scheduled := by
  simp [isScheduled, hp]

theorem Changed.isScheduled_self {h h' : Heap}
    (c : Changed h h' p (some e)) : h'.isScheduled p = e.scheduled := by
  obtain ⟨d, hd, hb⟩ := c.get
  rw [isScheduled_of_get hd]
  exact (Event.of_body hb).2.2.symm

theorem Changed.isScheduled_retired (c : Changed h h' p o) (hu : Retired e o) :
    h'.isScheduled p = false := by
  cases o with
  | some d => rw [c.isScheduled_self, (hu d rfl).1]
  | none =>
    have hnone : h'.get p = none := by simpa using c.self
    simp [isScheduled, hnone]

namespace Settled

variable {s : State} {log : List Obs} {q : List EventPtr} {p : EventPtr}

section

variable (hc : Settled s log q)
include hc

theorem mem_iff (hp : s.heap.get p = some e) : p ∈ q ↔ e.scheduled = true := by
  rw [hc.flagged p, isScheduled_of_get hp]

theorem flagged_erase (hchg : Changed s.heap h' p o) (hu : Retired e o) (r : EventPtr) :
    r ∈ q.erase p ↔ h'.isScheduled r = true := by
  obtain rfl | hr := eq_or_ne r p
  · simp [hchg.isScheduled_retired hu, hc.queue.nodup.not_mem_erase]
  · rw [mem_erase_of_ne hr, hchg.isScheduled_other hr]
    exact hc.flagged r

/-- What is not in the queue may change. -/
theorem frame (servicing : Option EventPtr) (hq : Queue h' s.head q)
    (hk : ∀ r ∈ q, ∀ e', h'.get r = some e' → ∃ e, s.heap.get r = some e ∧ e'.key = e.key ∧
      e'.queue = e.queue)
    (hf : ∀ r, h'.isScheduled r = s.heap.isScheduled r) (hi : h'.Initialized) :
    Settled { s with heap := h', servicing := servicing } log q := by
  have hkey : ∀ r ∈ q, h'.key r = s.heap.key r := by
    intro r hr
    obtain ⟨e', he'⟩ := hq.mem_get hr
    obtain ⟨e, he, hek, _⟩ := hk r hr e' he'
    rw [key_of_get he', key_of_get he, hek]
  refine ⟨⟨hq, ?_, ?_, hc.counted⟩, fun r => by rw [hc.flagged r, hf r], hi⟩
  · refine hc.order.imp_of_mem ?_
    intro a b ha hb hab
    unfold Before
    rw [hkey a ha, hkey b hb]
    exact hab
  · intro r hr e' he'
    obtain ⟨e, he, hek, heq⟩ := hk r hr e' he'
    have hw : e'.when = e.when := congrArg (fun k : Key => (ofLex k).1) hek
    rw [heq, hw]
    exact hc.owned r hr e he

theorem same (servicing : Option EventPtr) : Settled { s with servicing := servicing } log q :=
  ⟨{ hc with }, hc.flagged, hc.initialized⟩

theorem reflag (hp : s.heap.get p = some e) {f : Flags}
    (hf : Flags.isSet f .Scheduled = e.scheduled) (hi : f &&& .InitMask = e.flags &&& .InitMask) :
    Settled { s with heap := s.heap.set p { e with flags := f } } log q := by
  refine hc.frame s.servicing (hc.queue.set_same hp rfl rfl rfl) ?_ ?_ ?_
  · intro r _ e' he'
    obtain rfl | hr := eq_or_ne r p
    · rw [get_set_self] at he'
      obtain rfl := some.inj he'
      exact ⟨e, hp, rfl, rfl⟩
    · rw [get_set_ne _ _ hr] at he'
      exact ⟨e', he', rfl, rfl⟩
  · intro r
    obtain rfl | hr := eq_or_ne r p
    · rw [isScheduled_of_get hp, isScheduled_of_get (get_set_self _ _ _)]
      exact hf
    · unfold isScheduled
      rw [get_set_ne _ _ hr]
  · apply (Changed.set s.heap p _).initialized hc.initialized
    rintro _ ⟨⟩
    rw [← hc.initialized p e hp]
    exact Event.initialized_congr hi

theorem free (hp : s.heap.get p = some e) (hs : e.scheduled = false) (servicing : Option EventPtr) :
    Settled { s with heap := s.heap.free p, servicing := servicing } log q := by
  have hn : p ∉ q := by
    rw [hc.mem_iff hp, hs]
    exact Bool.false_ne_true
  refine hc.frame servicing (hc.queue.free hn) ?_ ?_
    ((Changed.free s.heap p).initialized hc.initialized (by simp))
  · intro r hr e' he'
    have hrp : r ≠ p := fun heq => hn (heq ▸ hr)
    exact ⟨e', by simpa [Heap.free, hrp] using he', rfl, rfl⟩
  · intro r
    obtain rfl | hr := eq_or_ne r p
    · rw [isScheduled_of_get hp, hs]
      simp [isScheduled, free]
    · simp [Heap.isScheduled, Heap.free, hr]

theorem alloc (hs : e.scheduled = false)
    (hi : e.initialized = true) : Settled { s with heap := s.heap.alloc e } log q := by
  refine hc.frame s.servicing (hc.queue.alloc e) ?_ ?_ ?_
  · intro r hr e' he'
    obtain ⟨d, hd⟩ := hc.queue.mem_get hr
    have hrp : r ≠ s.heap.size := (hc.queue.bounded r d hd).ne
    exact ⟨e', by simpa [Heap.alloc, hrp] using he', rfl, rfl⟩
  · intro r
    by_cases hr : r = s.heap.size
    · have hnone : s.heap.get r = none := by
        cases hd : s.heap.get r with
        | none => rfl
        | some d =>
          exact ((hc.queue.bounded r d hd).ne hr).elim
      subst hr
      simp [isScheduled, hnone, hs]
    · simp [Heap.isScheduled, Heap.alloc, hr]
  · intro r d hd
    by_cases hr : r = s.heap.size
    · simp only [Heap.alloc, hr, if_true] at hd
      obtain rfl := some.inj hd
      exact hi
    · exact hc.initialized r d (by simpa [Heap.alloc, hr] using hd)

end

theorem flagged_insert (hchg : Changed h₁ h' p (some e))
    (hs : e.scheduled = true) (hf : ∀ r, r ≠ p → (r ∈ q ↔ h₁.isScheduled r = true))
    (r : EventPtr) : r ∈ insertSorted h'.key p q ↔ h'.isScheduled r = true := by
  rw [(perm_orderedInsert _ _ _).mem_iff]
  obtain rfl | hr := eq_or_ne r p
  · simp [hchg.isScheduled_self, hs]
  · simp [hr, hchg.isScheduled_other hr, hf r hr]

section

variable (hc : Settled s log q)
include hc

theorem schedule (hm : (schedule p when).Meets s) :
    ∃ t q', EventQueue.schedule s p when = .ok t ∧ Settled t (.inserted p :: log) q' ∧
      t.curTick = s.curTick := by
  obtain ⟨hw, e, hp, hs, hi⟩ := hm
  have hn : p ∉ q := by
    rw [hc.mem_iff hp, hs]
    exact Bool.false_ne_true
  obtain ⟨h', head', heq, hchg, hq⟩ := schedule_spec hc.queue hp hn hw hs hi
  refine ⟨_, _, heq, ⟨hc.insert hn hchg rfl hw hq, flagged_insert hchg ?_ ?_,
    hchg.initialized hc.initialized ?_⟩, rfl⟩
  · exact Flags.isSet_set_self e.flags (by decide)
  · exact fun r _ => hc.flagged r
  · rintro _ ⟨⟩
    rw [← hi]
    exact Event.initialized_congr (Flags.set_and (by decide) _)

theorem deschedule (hm : (deschedule p).Meets s) :
    ∃ t q', EventQueue.deschedule s p = .ok t ∧ Settled t (.removed p :: log) q' ∧
      t.curTick = s.curTick := by
  obtain ⟨e, hp, hs, hi⟩ := hm
  have hmem : p ∈ q := (hc.mem_iff hp).mpr hs
  obtain ⟨h', head', o, heq, hchg, hun, hq⟩ :=
    deschedule_spec hc.queue hp hmem hs hi (hc.owned p hmem e hp).1
  refine ⟨_, _, heq, ⟨hc.erase hmem hchg (.inl rfl) ?_ s.servicing hq, hc.flagged_erase hchg hun,
    hchg.initialized hc.initialized (fun d hd => (hun d hd).2.trans hi)⟩, rfl⟩
  exact fun r hr e he => (hc.owned r (mem_of_mem_erase hr) e he).2

theorem reschedule (hm : (reschedule p when always).Meets s) :
    ∃ t q', EventQueue.reschedule s p when always = .ok t ∧
      Settled t ((reschedule p when always).observe s ++ log) q' ∧
      t.curTick = s.curTick := by
  obtain ⟨hw, e, hp, ha, hi⟩ := hm
  obtain ⟨h', head', h₁, head₁, e₁, heq, hrel, hq₁, hbody, hchg, hq⟩ := reschedule_spec hc.queue hp
    (hc.mem_iff hp) (fun hmem => (hc.owned p hmem e hp).1) hw ha hi
  have hflag := flagged_insert hchg (q := q.erase p)
    (Flags.isSet_set_self (Flags.clear e₁.flags .Squashed) (by decide)) (fun r hr => by
      rw [mem_erase_of_ne hr, hc.flagged r, (Changed.of_relinked hrel p).isScheduled_other hr])
  have hn : p ∉ q.erase p := hc.queue.nodup.not_mem_erase
  have hinit : h'.Initialized := by
    have hchg' := (Changed.of_relinked hrel p).initialized hc.initialized (hc.initialized p)
    apply hchg.initialized hchg'
    rintro _ ⟨⟩
    rw [← hi]
    apply Event.initialized_congr
    rw [Flags.set_and (by decide), Flags.clear_and (by decide), Event.flags_of_body hbody]
  refine ⟨_, _, heq, ⟨?_, hflag, hinit⟩, rfl⟩
  by_cases hmem : p ∈ q
  · have hobs : (Op.reschedule p when always).observe s = [.inserted p, .removed p] := by
      simp [observe, ← hc.flagged p, hmem]
    have htick : ∀ r ∈ q.erase p, ∀ e, s.heap.get r = some e → s.curTick ≤ e.when :=
      fun r hr e he => (hc.owned r (mem_of_mem_erase hr) e he).2
    have hc₁ := hc.erase hmem (Changed.of_relinked hrel p) (.inl rfl) htick s.servicing hq₁
    rw [hobs]
    exact hc₁.insert hn hchg rfl hw hq
  · have hobs : (Op.reschedule p when always).observe s = [.inserted p] := by
      simp [observe, ← hc.flagged p, hmem]
    rw [erase_of_not_mem hmem] at hq₁ hq ⊢
    rw [hobs]
    exact (hc.relinked hrel hq₁).insert hmem hchg rfl hw hq

/-- The first event is taken off and the time moves on to it. -/
theorem beginService (hm : beginService.Meets s) :
    ∃ t p q', q = p :: q' ∧ beginService.apply s = .ok t ∧
      Settled t (.serviced p :: log) q' ∧ s.curTick ≤ t.curTick := by
  obtain ⟨hsv, hh⟩ := hm
  cases q with
  | nil => exact absurd hc.queue.head_eq hh
  | cons p q' =>
    obtain ⟨e, hp⟩ := hc.queue.mem_get (p := p) (by simp)
    obtain ⟨h', head', o, tick, sv, heq, hchg, hun, hq, htick⟩ := beginService_spec hc.queue hp
    have hpw := (hc.owned p (by simp) e hp).2
    -- the front event has the earliest time of all
    have hfirst : ∀ r ∈ q', ∀ d, s.heap.get r = some d → e.when ≤ d.when := by
      intro r hr d hd
      have hle := (pairwise_cons.mp hc.queue.sorted).1 r hr
      rw [key_of_get hp, key_of_get hd] at hle
      exact Prod.Lex.monotone_fst _ _ hle
    have herase : (p :: q').erase p = q' := by simp
    refine ⟨{ s with heap := h', head := head', curTick := tick, servicing := sv }, p, q', rfl, ?_,
      ⟨?_, ?_, ?_⟩, ?_⟩
    · simp [apply, hsv, check, heq]
    · rw [← herase] at hq ⊢
      apply hc.erase (by simp) hchg (.inr rfl) ?_ sv hq
      intro r hr d hd
      rw [herase] at hr
      rcases htick with ⟨rfl, _⟩ | ⟨rfl, _⟩
      · exact hfirst r hr d hd
      · exact (hc.owned r (by simp [hr]) d hd).2
    · intro r
      rw [← hc.flagged_erase hchg hun r, herase]
    · exact hchg.initialized hc.initialized
        (fun d hd => (hun d hd).2.trans (hc.initialized p e hp))
    · rcases htick with ⟨rfl, _⟩ | ⟨rfl, _⟩
      · exact hpw
      · exact le_rfl

theorem endService (hm : endService.Meets s) :
    ∃ t q', endService.apply s = .ok t ∧ Settled t log q' ∧ t.curTick = s.curTick := by
  obtain ⟨p, e, hsv, hp, hx⟩ := hm
  by_cases hexit : e.isExitEvent = true
  · refine ⟨_, q, ?_, hc.same none, rfl⟩
    simp [apply, EventQueue.endService, hsv, deref_of_get hp, hexit, check_ok (hx hexit)]
  obtain ⟨h', heq, hq, hh⟩ :=
    autoDelete_spec (s := { s with servicing := none }) hc.queue hp (hc.mem_iff hp)
  refine ⟨{ s with heap := h', servicing := none }, q, ?_, ?_, rfl⟩
  · simp [apply, EventQueue.endService, hsv, deref_of_get hp, hexit, heq]
  · rcases hh with rfl | ⟨hs, rfl⟩
    · exact hc.same none
    · exact hc.free hp hs none

/-- A call that meets its assertions returns and keeps the queue in order. -/
theorem step {op : Op} (hm : op.Meets s) :
    ∃ t q', op.apply s = .ok t ∧ Settled t (op.observe s ++ log) q' ∧ s.curTick ≤ t.curTick := by
  cases op with
  | construct p f =>
    have hs : (Event.make p f).scheduled = false := by
      unfold Event.make Event.scheduled
      exact (Flags.isSet_set_of_and (Flags.and_of_publicWrite hm (by decide)) _).trans (by decide)
    have hi : (Event.make p f).initialized = true := by
      simp only [Event.make, Event.initialized]
      exact beq_iff_eq.mpr
        ((Flags.set_and (Flags.and_of_publicWrite hm (by decide)) _).trans (by decide))
    refine ⟨_, q, ?_, hc.alloc hs hi, le_rfl⟩
    simp [apply, check_ok hm]
  | destroy p =>
    obtain ⟨e, hp, hs⟩ := hm
    exact ⟨_, q, delete_eq hp hs, hc.free hp hs s.servicing, le_rfl⟩
  | setFlags p f =>
    obtain ⟨hf, e, hp⟩ := hm
    have hc' := hc.reflag hp (f := Flags.set e.flags f)
      (Flags.isSet_set_of_and (Flags.and_of_publicWrite hf (by decide)) _)
      (Flags.set_and (Flags.and_of_publicWrite hf (by decide)) _)
    refine ⟨_, q, ?_, hc', le_rfl⟩
    simp [apply, check_ok hf, modify_eq hp]
  | clearFlags p f =>
    obtain ⟨hf, e, hp⟩ := hm
    have hc' := hc.reflag hp (f := Flags.clear e.flags f)
      (Flags.isSet_clear_of_and (Flags.and_of_publicWrite hf (by decide)) _)
      (Flags.clear_and (Flags.and_of_publicWrite hf (by decide)) _)
    refine ⟨_, q, ?_, hc', le_rfl⟩
    simp [apply, check_ok hf, modify_eq hp]
  | schedule p when =>
    obtain ⟨t, q', heq, hc', ht⟩ := hc.schedule hm
    exact ⟨t, q', heq, hc', ht.ge⟩
  | deschedule p =>
    obtain ⟨t, q', heq, hc', ht⟩ := hc.deschedule hm
    exact ⟨t, q', heq, hc', ht.ge⟩
  | reschedule p when always =>
    obtain ⟨t, q', heq, hc', ht⟩ := hc.reschedule hm
    exact ⟨t, q', heq, hc', ht.ge⟩
  | beginService =>
    obtain ⟨t, p, q', rfl, heq, hc', ht⟩ := hc.beginService hm
    refine ⟨t, q', heq, ?_, ht⟩
    rw [observe, hc.queue.head_eq]
    exact hc'
  | endService =>
    obtain ⟨t, q', heq, hc', ht⟩ := hc.endService hm
    exact ⟨t, q', heq, hc', ht.ge⟩

end

end Settled

theorem settled_start (h : queueMachine.init s) : Settled s [] [] := by
  obtain ⟨hget, hhead, _, _⟩ := h
  refine ⟨⟨?_, by simp, by simp, by simp⟩, by simp [isScheduled, hget],
    by simp [Initialized, hget]⟩
  rw [hhead]
  exact .empty s.heap (by simp [Bounded, hget])

variable {log : List (List Obs)}

/-- After any run the queue is that of what has been scheduled and not been serviced. -/
theorem run_settled {s : State} (r : queueMachine.Run log s) : ∃ q, Settled s log.flatten q := by
  refine r.invariant (I := fun log s => ∃ q, Settled s log.flatten q)
    (fun s h => ⟨[], settled_start h⟩) ?_
  rintro log s obs t ⟨q, hc⟩ ⟨op, hok, rfl⟩
  obtain ⟨t', q', heq, hc', _⟩ := hc.step (meets_of_ok hok)
  obtain rfl := Except.ok.inj (hok.symm.trans heq)
  exact ⟨q', hc'⟩

theorem run_applyAll {ops : List Op} (r : queueMachine.Run log s) (h : applyAll ops s = .ok t) :
    ∃ log', queueMachine.Run (log' ++ log) t := by
  induction ops generalizing log s with
  | nil =>
    obtain rfl := Except.ok.inj h
    exact ⟨[], r⟩
  | cons op ops ih =>
    simp only [applyAll, foldlM_cons, bind_eq_ok] at h
    obtain ⟨u, hop, h⟩ := h
    obtain ⟨log', r'⟩ := ih (r.next ⟨op, hop, rfl⟩) h
    exact ⟨log' ++ [op.observe s], by simpa using r'⟩

/-- A whole call of `serviceOne` is a run of steps, whatever calls `process()`
makes. -/
theorem run_serviceOne {ops : List Op}
    {exit : Option EventPtr} (r : queueMachine.Run log s) (hs : s.servicing = none)
    (h : EventQueue.serviceOne (applyAll ops) s = .ok (t, exit)) :
    ∃ log', queueMachine.Run (log' ++ beginService.observe s :: log) t := by
  simp only [EventQueue.serviceOne, bind_eq_ok] at h
  obtain ⟨u, hbegin, h⟩ := h
  have hu : queueMachine.Run (beginService.observe s :: log) u := by
    refine r.next ⟨.beginService, ?_, rfl⟩
    simp [apply, check, hs, hbegin]
  cases hsv : u.servicing with
  | none =>
    simp only [hsv, pure_eq_ok, Except.ok.injEq, Prod.mk.injEq] at h
    obtain ⟨rfl, _⟩ := h
    exact ⟨[], hu⟩
  | some event =>
    simp only [hsv, bind_eq_ok] at h
    obtain ⟨v, hops, hend⟩ := h
    obtain ⟨log', hv⟩ := run_applyAll hu hops
    refine ⟨[] :: log', hv.next ⟨.endService, ?_, rfl⟩⟩
    simp [apply, hend]

/-- After any run, the bins hold exactly the scheduled events, each once. Every
insertion is matched by a service, a removal or a place on the queue. A call
that meets its assertions returns, and time does not go back. What is serviced
next is the event with the smallest key, and of several such the last inserted. -/
theorem run_serves_in_order {log : List (List Obs)} {s : State} (r : queueMachine.Run log s) :
    (∃ bs, Bins s.heap s.head bs ∧ bs.flatten.Nodup ∧
      (∀ p, p ∈ bs.flatten ↔ s.heap.isScheduled p = true) ∧
      ∀ p, log.flatten.count (.inserted p) =
        log.flatten.count (.serviced p) + log.flatten.count (.removed p) + bs.flatten.count p) ∧
    (∀ op : Op, op.Meets s ↔ ∃ t, op.apply s = .ok t) ∧
    (∀ (op : Op) (t : State), op.apply s = .ok t → s.curTick ≤ t.curTick) ∧
    (∀ t, Op.beginService.apply s = .ok t → ∃ p, Op.beginService.observe s = [.serviced p] ∧
      s.heap.isScheduled p = true ∧
      (∀ r, t.heap.isScheduled r = true ↔ s.heap.isScheduled r = true ∧ r ≠ p) ∧
      ∀ r, s.heap.isScheduled r = true → r ≠ p → Before s.heap log.flatten p r) ∧
    (∀ (ops : List Op) (t : State) (exit : Option EventPtr), s.servicing = none →
      EventQueue.serviceOne (Op.applyAll ops) s = .ok (t, exit) →
      ∃ log', queueMachine.Run (log' ++ Op.beginService.observe s :: log) t) := by
  obtain ⟨q, hc⟩ := run_settled r
  refine ⟨?_, fun op => ⟨fun hm => ?_, fun ⟨t, ht⟩ => meets_of_ok ht⟩, ?_, ?_,
    fun ops t exit hs h => run_serviceOne r hs h⟩
  · obtain ⟨bs, hb, _, rfl⟩ := hc.queue.bins
    exact ⟨bs, hb, hc.queue.nodup, hc.flagged, hc.counted⟩
  · obtain ⟨t, _, ht, _⟩ := hc.step hm
    exact ⟨t, ht⟩
  · intro op t ht
    obtain ⟨t', _, heq, _, hle⟩ := hc.step (meets_of_ok ht)
    obtain rfl := Except.ok.inj (ht.symm.trans heq)
    exact hle
  intro t ht
  obtain ⟨t', p, q', rfl, heq, hc', _⟩ := hc.beginService (meets_of_ok ht)
  obtain rfl := Except.ok.inj (ht.symm.trans heq)
  have hn : p ∉ q' := (nodup_cons.mp hc.queue.nodup).1
  refine ⟨p, by rw [observe, hc.queue.head_eq]; rfl, (hc.flagged p).mp (by simp), ?_, ?_⟩
  · intro r
    rw [← hc'.flagged r, ← hc.flagged r, mem_cons]
    constructor
    · exact fun hr => ⟨.inr hr, fun heq => hn (heq ▸ hr)⟩
    · exact fun ⟨hr, hne⟩ => hr.resolve_left hne
  · intro r hr hne
    have hmem := (mem_cons.mp ((hc.flagged r).mpr hr)).resolve_left hne
    exact (pairwise_cons.mp hc.order).1 r hmem

/-- Two events of equal key: the second one inserted is serviced first. -/
theorem run_serves_last_of_two : ∃ log t,
    Op.applyAll [.construct 0 0, .construct 0 0, .schedule 0 5, .schedule 1 5]
      (State.initial 0) = .ok t ∧ queueMachine.Run log t ∧ t.head = some 1 ∧
    ∀ u, Op.beginService.apply t = .ok u → ∃ p, Op.beginService.observe t = [.serviced p] ∧
      ∀ r, t.heap.isScheduled r = true → r ≠ p → Before t.heap log.flatten p r := by
  obtain ⟨t, ht, hhead⟩ : ∃ t, applyAll
      [.construct 0 0, .construct 0 0, .schedule 0 5, .schedule 1 5] (State.initial 0) = .ok t ∧
      t.head = some 1 := ⟨_, rfl, rfl⟩
  obtain ⟨log, r⟩ := run_applyAll (.start ⟨rfl, rfl, rfl, rfl⟩) ht
  refine ⟨_, t, ht, r, hhead, fun u hu => ?_⟩
  obtain ⟨p, hobs, _, _, hmin⟩ := (run_serves_in_order r).2.2.2.1 u hu
  exact ⟨p, hobs, hmin⟩

end Gem5.Sim
