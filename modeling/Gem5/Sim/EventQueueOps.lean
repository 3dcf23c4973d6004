import Gem5.Sim.EventLinking

namespace Gem5.Sim

open Lib EventQueue Heap Flags BitVec

namespace Flags

variable {f g : Flags}

theorem bit_of_and (h : f &&& g = 0) (i : Nat) (hi : i < 16) : (f[i] && g[i]) = false := by
  have hb := congrArg (fun x : Flags => x.getLsbD i) h
  simpa [hi] using hb

theorem isSet_clear_self (flags f : Flags) : (flags.clear f).isSet f = false := by
  have h : flags &&& ~~~f &&& f = 0 := by
    rw [BitVec.and_assoc, BitVec.and_comm (~~~f), BitVec.and_not_self]
    exact and_zero
  simp [isSet, clear, h]

theorem isSet_set_self (flags : Flags) (hf : (f != 0) = true) : (flags.set f).isSet f = true := by
  have h : (flags ||| f) &&& f = f := by
    ext i hi
    simp only [getElem_and, getElem_or]
    cases flags[i] <;> cases f[i] <;> rfl
  simpa only [isSet, set, h] using hf

section

variable (h : f &&& g = 0) (flags : Flags)
include h flags

/-- Clearing or setting bits apart from those of `g` leaves the bits of `g` alone. -/
theorem clear_and : flags.clear f &&& g = flags &&& g := by
  ext i hi
  have hb := bit_of_and h i hi
  simp only [clear, getElem_and, getElem_not]
  cases flags[i] <;> cases hf : f[i] <;> simp_all

theorem set_and : flags.set f &&& g = flags &&& g := by
  ext i hi
  have hb := bit_of_and h i hi
  simp only [set, getElem_and, getElem_or]
  cases flags[i] <;> cases hf : f[i] <;> simp_all

theorem isSet_clear_of_and : (flags.clear f).isSet g = flags.isSet g := by
  simp only [isSet, clear_and h]

theorem isSet_set_of_and : (flags.set f).isSet g = flags.isSet g := by
  simp only [isSet, set_and h]

end

theorem and_of_publicWrite (h : f.noneSet (~~~PublicWrite) = true)
    (hg : ~~~PublicWrite &&& g = g) : f &&& g = 0 := by
  have hf : f &&& ~~~PublicWrite = 0 := by simpa [noneSet] using h
  rw [← hg, ← BitVec.and_assoc, hf]
  exact zero_and

end Flags

/-- The queue at `head` holds the events of `q`, each once and in the order in
which they are to be serviced. -/
structure Queue (h : Heap) (head : Option EventPtr) (q : List EventPtr) : Prop where
  bins : ∃ bs, Bins h head bs ∧ Ordered h.key bs ∧ bs.flatten = q
  nodup : q.Nodup
  bounded : h.Bounded

theorem Bins.length_le (hb : Bins h r bs) : bs.length ≤ bs.flatten.length := by
  induction hb with
  | nil => simp
  | cons e found below rest ih =>
    rw [List.length_cons, List.flatten_cons, List.length_append, List.length_cons]
    omega

namespace Queue

theorem empty (h : Heap) (hb : h.Bounded) : Queue h none [] :=
  ⟨⟨[], .nil, ⟨by simp, by simp⟩, rfl⟩, List.nodup_nil, hb⟩

variable {head : Option EventPtr}

section

variable (hq : Queue h head q)
include hq

theorem mem_get (hp : p ∈ q) : ∃ e, h.get p = some e := by
  obtain ⟨bs, hb, _, rfl⟩ := hq.bins
  exact hb.mem_get p hp

/-- The events of a queue are distinct and below the allocation bound. -/
theorem length_le : q.length ≤ h.size := by
  have hsub : q ⊆ List.range h.size := by
    intro p hp
    obtain ⟨e, he⟩ := hq.mem_get hp
    exact List.mem_range.mpr (hq.bounded p e he)
  simpa using (hq.nodup.subperm hsub).length_le

theorem sorted : q.Pairwise (fun a b => h.key a ≤ h.key b) := by
  obtain ⟨bs, _, ho, rfl⟩ := hq.bins
  exact ho.sorted

/-- A queue survives changes to its events that keep their links and keys, and
any change to other events. -/
theorem frame (hb : h'.Bounded) (hk : ∀ p ∈ q, ∀ e, h.get p = some e → ∃ e', h'.get p = some e' ∧
      e'.nextInBin = e.nextInBin ∧ e'.nextBin = e.nextBin ∧ e'.key = e.key) :
    Queue h' head q := by
  obtain ⟨bs, hbins, ho, rfl⟩ := hq.bins
  refine ⟨⟨bs, hbins.frame ?_, ho.congr ?_, rfl⟩, hq.nodup, hb⟩
  · intro p hp e he
    obtain ⟨e', he', hn, hn', _⟩ := hk p hp e he
    exact ⟨e', he', hn, hn'⟩
  · intro p hp
    obtain ⟨e, he⟩ := hbins.mem_get p hp
    obtain ⟨e', he', _, _, hkey⟩ := hk p hp e he
    rw [key_of_get he', key_of_get he, hkey]

end

end Queue

theorem Relinked.bounded (r : Relinked h h') (hb : h.Bounded) : h'.Bounded := by
  intro p e he
  have hbody := r.body p
  rw [he] at hbody
  obtain ⟨d, hd, _⟩ := Option.map_eq_some_iff.mp hbody.symm
  exact r.size ▸ hb p d hd

theorem Queue.set_same (hq : Queue h head q) (hp : h.get p = some e)
    (hl : e'.nextInBin = e.nextInBin) (hl' : e'.nextBin = e.nextBin) (hk : e'.key = e.key) :
    Queue (h.set p e') head q := by
  refine hq.frame (hq.bounded.set hp e') ?_
  intro r hr d hd
  obtain rfl | hrp := eq_or_ne r p
  · obtain rfl := Option.some.inj (hp.symm.trans hd)
    exact ⟨e', get_set_self h r e', hl, hl', hk⟩
  · exact ⟨d, by rw [get_set_ne h e' hrp, hd], rfl, rfl, rfl⟩

theorem Queue.set_off (hq : Queue h head q) (hp : h.get p = some e) (hn : p ∉ q)
    (e' : Event) : Queue (h.set p e') head q := by
  refine hq.frame (hq.bounded.set hp e') ?_
  intro r hr d hd
  have hrp : r ≠ p := fun heq => hn (heq ▸ hr)
  exact ⟨d, by rw [get_set_ne h e' hrp, hd], rfl, rfl, rfl⟩

/-- An insertion puts the event before the first that is not earlier. -/
theorem insert_spec (hq : Queue s.heap s.head q) (hp : s.heap.get p = some e) (hn : p ∉ q) :
    ∃ h' head', insert s p = .ok { s with heap := h', head := head' } ∧
      Relinked s.heap h' ∧ Queue h' head' (insertSorted s.heap.key p q) := by
  have hlen := hq.length_le
  obtain ⟨bs, hb, ho, rfl⟩ := hq.bins
  have hlb := hb.length_le
  have hnodup : (insertSorted s.heap.key p bs.flatten).Nodup := by
    rw [(List.perm_orderedInsert _ _ _).nodup_iff]
    exact List.nodup_cons.mpr ⟨hn, hq.nodup⟩
  have hkp : s.heap.key p = e.key := key_of_get hp
  -- the event goes on top when nothing at the head comes strictly before it
  have htop (hle : ∀ r ∈ bs.flatten, s.heap.key p ≤ s.heap.key r) :
      ∃ h', Event.insertBefore s.heap p s.head = .ok h' ∧ Relinked s.heap h' ∧
        Queue h' (some p) (insertSorted s.heap.key p bs.flatten) := by
    obtain ⟨e', hbody, hins, bs', hb', ho', hfl⟩ := insertBefore_spec hb ho hp hn hle
    have hrel := Relinked.set hp hbody
    refine ⟨_, hins, hrel, ⟨bs', hb', hrel.key.symm ▸ ho', ?_⟩, hnodup, hrel.bounded hq.bounded⟩
    rw [hfl, insertSorted_front hle]
  cases hhead : s.head with
  | none =>
    have hnil : bs = [] := by
      rw [hhead] at hb
      cases hb
      rfl
    obtain ⟨h', hins, hrel, hq'⟩ := htop (by simp [hnil])
    refine ⟨h', some p, ?_, hrel, hq'⟩
    rw [hhead] at hins
    simp [EventQueue.insert, deref_of_get hp, hhead, hins]
  | some c =>
    rw [hhead] at hb
    cases hb with
    | @cons _ cs bs ce found below rest =>
    have hkc : s.heap.key c = ce.key := key_of_get found
    by_cases hle : e.le ce = true
    · have hpc : s.heap.key p ≤ s.heap.key c := by rw [hkp, hkc]; exact (e.le_iff ce).mp hle
      obtain ⟨h', hins, hrel, hq'⟩ := htop (by
        intro r hr
        rcases List.mem_append.mp (List.flatten_cons ▸ hr) with hr | hr
        · rw [ho.same _ (by simp) r hr c (by simp)]
          exact hpc
        · exact hpc.trans (ho.head_lt (by simp) hr).le)
      refine ⟨h', some p, ?_, hrel, hq'⟩
      rw [hhead] at hins
      simp [EventQueue.insert, deref_of_get hp, deref_of_get found, hhead, hle, hins]
    · have hcp : s.heap.key c < s.heap.key p := by
        rw [hkp, hkc]
        exact not_le.mp (fun hl => hle ((e.le_iff ce).mpr hl))
      have hfuel : bs.length ≤ s.heap.size := by
        rw [List.length_cons] at hlb
        omega
      obtain ⟨last, curr, h₁, h₂, hfind, hins, hset, hrel, _, bs', hbins, hord, hfl⟩ :=
        insert_behind hp found below rest ho hq.nodup hn hcp hfuel
      refine ⟨h₂, some c, ?_, hrel, ⟨(c :: cs) :: bs', hbins, hrel.key.symm ▸ hord, ?_⟩, hnodup,
        hrel.bounded hq.bounded⟩
      · simp [EventQueue.insert, deref_of_get hp, deref_of_get found, hhead, hle, hfind,
          hins, hset]
      · rw [List.flatten_cons, List.flatten_cons, hfl, insertSorted_append]
        intro r hr
        rw [ho.same _ (by simp) r hr c (by simp)]
        exact hcp

/-- A removal takes out the event that it is asked for, and no other. -/
theorem remove_spec (hq : Queue s.heap s.head q) (hp : s.heap.get p = some e) (hm : p ∈ q)
    (hqueue : e.queue = some s.self) :
    ∃ h' head', remove s p = .ok { s with heap := h', head := head' } ∧
      Relinked s.heap h' ∧ Queue h' head' (q.erase p) := by
  have hlen := hq.length_le
  obtain ⟨bs, hb, ho, rfl⟩ := hq.bins
  have hlb := hb.length_le
  have hnodup := hq.nodup.erase p
  have hkp : s.heap.key p = e.key := key_of_get hp
  cases hhead : s.head with
  | none =>
    rw [hhead] at hb
    cases hb
    cases hm
  | some c =>
    rw [hhead] at hb
    have hb₀ := hb
    cases hb with
    | @cons _ cs bs ce found below rest =>
    have hkc : s.heap.key c = ce.key := key_of_get found
    have hsize : cs.length + 1 + bs.flatten.length ≤ s.heap.size := by
      simpa only [List.flatten_cons, List.length_append, List.length_cons] using hlen
    rcases List.mem_append.mp (List.flatten_cons ▸ hm) with hpc | hpb
    · have heq : ce.eq e = true := by
        rw [Event.eq_iff, ← hkc, ← hkp]
        exact ho.same _ (by simp) c (by simp) p hpc
      obtain ⟨h', top, hrm, hrel, _, bs', hbins, hord, hfl⟩ :=
        removeItem_spec hb₀ ho hq.nodup hpc (by omega)
      refine ⟨h', top, ?_, hrel, ⟨bs', hbins, hrel.key.symm ▸ hord, hfl⟩, hnodup,
        hrel.bounded hq.bounded⟩
      simp [remove, hhead, deref_of_get hp, deref_of_get found, check, hqueue,
        heq, hrm]
    have hcp : s.heap.key c < s.heap.key p := ho.head_lt (by simp) hpb
    have hne : ce.eq e = false := by
      rw [Bool.eq_false_iff, Ne, Event.eq_iff, ← hkc, ← hkp]
      exact hcp.ne
    have hlb' : bs.length ≤ s.heap.size := by
      rw [List.length_cons] at hlb
      omega
    obtain ⟨last, curr, ce', h₁, h₂, top, hfind, hcurr, hce, hrm, hset, hrel, _, bs', hbins,
      hord, hfl⟩ := remove_behind hp found below rest ho hq.nodup hpb hlb' (by omega)
    have hnc : p ∉ c :: cs := by
      have hnd := List.nodup_append.mp (List.flatten_cons ▸ hq.nodup)
      exact fun hc => hnd.2.2 p hc p hpb rfl
    refine ⟨h₂, some c, ?_, hrel, ⟨_, hbins, hrel.key.symm ▸ hord, ?_⟩, hnodup,
      hrel.bounded hq.bounded⟩
    · simp [remove, hhead, deref_of_get hp, deref_of_get found,
        deref_of_get hcurr, check, hqueue, hne, hfind, hce, hrm, hset]
    · rw [List.flatten_cons, List.flatten_cons, List.erase_append_right _ hnc, hfl]

theorem Event.flags_of_body {e e' : Event} (hb : e'.body = e.body) : e'.flags = e.flags :=
  show e'.body.flags = e.body.flags by rw [hb]

/-- Between two memories one event became `o`, and only links changed elsewhere. -/
structure Changed (h h' : Heap) (p : EventPtr) (o : Option Event) : Prop where
  size : h'.size = h.size
  other : ∀ r, r ≠ p → (h'.get r).map Event.body = (h.get r).map Event.body
  self : (h'.get p).map Event.body = o.map Event.body

namespace Changed

theorem set (h : Heap) (p : EventPtr) (e : Event) : Changed h (h.set p e) p (some e) :=
  ⟨rfl, fun r hr => by rw [get_set_ne h e hr], by simp⟩

theorem free (h : Heap) (p : EventPtr) : Changed h (h.free p) p none :=
  ⟨rfl, fun r hr => by rw [get_free_ne h hr], by simp⟩

theorem of_relinked (r : Relinked h h') (p : EventPtr) : Changed h h' p (h.get p) :=
  ⟨r.size, fun q _ => r.body q, r.body p⟩

theorem trans (a : Changed h h' p o) (b : Changed h' h'' p o') : Changed h h'' p o' :=
  ⟨b.size.trans a.size, fun r hr => (b.other r hr).trans (a.other r hr), b.self⟩

theorem relinked (a : Changed h h' p o) (b : Relinked h' h'') : Changed h h'' p o :=
  ⟨b.size.trans a.size, fun r hr => (b.body r).trans (a.other r hr), (b.body p).trans a.self⟩

theorem get (c : Changed h h' p (some e)) : ∃ e', h'.get p = some e' ∧ e'.body = e.body := by
  have hs := c.self
  rw [Option.map_some] at hs
  exact Option.map_eq_some_iff.mp hs

theorem key_other (c : Changed h h' p o) (hr : r ≠ p) : h'.key r = h.key r := by
  have hk (o : Option Event) : o.map Event.key = (o.map Event.body).map Event.key := by
    cases o <;> rfl
  unfold key
  rw [hk, c.other r hr, ← hk]

end Changed

theorem Queue.head_eq (hq : Queue h head q) : head = q.head? := by
  obtain ⟨bs, hb, _, rfl⟩ := hq.bins
  cases hb <;> rfl

theorem Queue.free (hq : Queue h head q) (hn : p ∉ q) : Queue (h.free p) head q := by
  apply hq.frame (hq.bounded.free p)
  intro r hr e he
  have hrp : r ≠ p := fun heq => hn (heq ▸ hr)
  exact ⟨e, by rw [get_free_ne h hrp, he], rfl, rfl, rfl⟩

theorem Queue.alloc (hq : Queue h head q) (e : Event) : Queue (h.alloc e) head q := by
  apply hq.frame (hq.bounded.alloc e)
  intro r hr d hd
  have hrp : r ≠ h.size := (hq.bounded r d hd).ne
  exact ⟨d, by rw [get_alloc_ne h e hrp, hd], rfl, rfl, rfl⟩

theorem Event.body_flags {e e' : Event} (hb : e'.body = e.body) (g : Flags → Flags) :
    Event.body { e' with flags := g e'.flags } = Event.body { e with flags := g e.flags } :=
  show { e'.body with flags := g e'.body.flags } = { e.body with flags := g e.body.flags } by
    rw [hb]

theorem modify_eq (hp : s.heap.get p = some e) (f : Event → Event) :
    EventQueue.modify s p f = .ok { s with heap := s.heap.set p (f e) } := by
  simp [EventQueue.modify, deref_of_get hp]

variable {q : List EventPtr} {p : EventPtr} {s : State} {e : Event}

section

variable (hq : Queue s.heap s.head q) (hp : s.heap.get p = some e) (hn : p ∉ q)
include hq hp hn

/-- The end of `schedule` and `reschedule`: a new time, the insertion, new flags. -/
theorem place_spec (when : Tick) (g : Flags → Flags) : ∃ h' head', (do
        let s ← modify s p (fun e => e.setWhen when s.self)
        let s ← insert s p
        modify s p (fun e => { e with flags := g e.flags })) =
          Except.ok { s with heap := h', head := head' } ∧
      Changed s.heap h' p (some { e with when, queue := some s.self, flags := g e.flags }) ∧
      Queue h' head' (insertSorted h'.key p q) := by
  have hget := get_set_self s.heap p (e.setWhen when s.self)
  obtain ⟨h', head', hins, hrel, hq'⟩ := insert_spec
    (s := { s with heap := s.heap.set p (e.setWhen when s.self) }) (hq.set_off hp hn _) hget hn
  obtain ⟨e', he', hbody⟩ := hrel.get hget
  have hchg := ((Changed.set s.heap p (e.setWhen when s.self)).relinked hrel).trans
    (Changed.set h' p { e' with flags := g e'.flags })
  have hkey : key (h'.set p { e' with flags := g e'.flags }) = h'.key := by
    funext r
    obtain rfl | hr := eq_or_ne r p
    · rw [key_of_get (get_set_self h' r _), key_of_get he']
      rfl
    · unfold key
      rw [get_set_ne h' _ hr]
  refine ⟨h'.set p { e' with flags := g e'.flags }, head', ?_, ⟨hchg.size, hchg.other, ?_⟩, ?_⟩
  · rw [modify_eq hp]
    simp only [ok_bind, hins]
    exact modify_eq he' _
  · rw [hchg.self]
    exact congrArg some (Event.body_flags hbody g)
  · rw [hkey, hrel.key]
    exact hq'.set_same he' rfl rfl rfl

/-- An event that is initialized and not scheduled is scheduled. -/
theorem schedule_spec
    (hw : s.curTick ≤ when) (hs : e.scheduled = false) (hi : e.initialized = true) :
    ∃ h' head', schedule s p when = .ok { s with heap := h', head := head' } ∧
      Changed s.heap h' p (some { e with
        when, queue := some s.self, flags := set e.flags .Scheduled }) ∧
      Queue h' head' (insertSorted h'.key p q) := by
  obtain ⟨h', head', heq, hres⟩ := place_spec hq hp hn when (fun f => set f .Scheduled)
  refine ⟨h', head', ?_, hres⟩
  rw [← heq]
  simp [schedule, check, hw, deref_of_get hp, hs, hi]

end

/-- What is left of an event taken off the queue: it is not scheduled, and it is
initialized if it was. -/
def Retired (e : Event) (o : Option Event) : Prop :=
  ∀ d, o = some d → d.scheduled = false ∧ d.initialized = e.initialized

theorem delete_eq (hp : s.heap.get p = some e) (hs : e.scheduled = false) :
    delete s p = .ok { s with heap := s.heap.free p } := by
  simp [delete, deref_of_get hp, check, hs]

/-- An event taken off the queue and marked so may be deleted, and is gone from
memory then. -/
theorem retire_spec (hq : Queue s.heap s.head q) (hp : s.heap.get p = some e) (hn : p ∉ q)
    (hs : e.scheduled = false) (b : Bool) :
    ∃ h' o, (if b then delete s p else .ok s) = .ok { s with heap := h' } ∧
      Changed s.heap h' p o ∧ Retired e o ∧ Queue h' s.head q := by
  cases b with
  | true =>
    exact ⟨s.heap.free p, none, delete_eq hp hs, .free s.heap p, by simp [Retired], hq.free hn⟩
  | false =>
    refine ⟨s.heap, some e, rfl, hp ▸ Changed.of_relinked (.refl s.heap) p, ?_, hq⟩
    rintro _ ⟨⟩
    exact ⟨hs, rfl⟩

theorem Event.initialized_congr {d e : Event} (h : d.flags &&& .InitMask = e.flags &&& .InitMask) :
    d.initialized = e.initialized := by
  unfold Event.initialized
  rw [h]

theorem Retired.congr (h : Retired d o) (hi : d.initialized = e.initialized) : Retired e o :=
  fun c hc => ⟨(h c hc).1, (h c hc).2.trans hi⟩

theorem Flags.retire_and (flags : Flags) :
    (flags.clear .Squashed).clear .Scheduled &&& .InitMask = flags &&& .InitMask := by
  rw [clear_and (by decide), clear_and (by decide)]

section

variable (hq : Queue s.heap s.head q) (hp : s.heap.get p = some e)
include hq hp

/-- A scheduled event is taken out, and deleted if it asks for it. -/
theorem deschedule_spec (hm : p ∈ q)
    (hs : e.scheduled = true) (hi : e.initialized = true) (hqueue : e.queue = some s.self) :
    ∃ h' head' o, deschedule s p = .ok { s with heap := h', head := head' } ∧
      Changed s.heap h' p o ∧ Retired e o ∧ Queue h' head' (q.erase p) := by
  obtain ⟨h₁, head', hrm, hrel, hq₁⟩ := remove_spec hq hp hm hqueue
  obtain ⟨e₁, he₁, hbody⟩ := hrel.get hp
  have hn : p ∉ q.erase p := hq.nodup.not_mem_erase
  have hinit : Event.initialized
      { e₁ with flags := clear (clear e₁.flags .Squashed) .Scheduled } =
        e.initialized := by
    refine Event.initialized_congr ((retire_and e₁.flags).trans ?_)
    rw [Event.flags_of_body hbody]
  have hclear : Event.scheduled
      { e₁ with flags := clear (clear e₁.flags .Squashed) .Scheduled } = false :=
    isSet_clear_self _ _
  have hget := get_set_self h₁ p
    { e₁ with flags := clear (clear e₁.flags .Squashed) .Scheduled }
  obtain ⟨h', o, hret, hchg, hun, hq'⟩ := retire_spec
    (s := { s with heap := h₁.set p _, head := head' }) (hq₁.set_off he₁ hn _) hget hn hclear
    (isSet (clear (clear e₁.flags .Squashed) .Scheduled) .AutoDelete)
  have hmod := modify_eq (s := { s with heap := h₁, head := head' }) he₁
    (fun e => { e with flags := clear (clear e.flags .Squashed) .Scheduled })
  refine ⟨h', head', o, ?_, ((Changed.of_relinked hrel p).trans (.set h₁ p _)).trans hchg,
    hun.congr hinit, hq'⟩
  rw [← hret]
  simp [deschedule, deref_of_get hp, check, hs, hi, hrm, hmod,
    deref_of_get hget]

/-- An event that is on the queue is first taken off it, which leaves `h₁`. -/
theorem reschedule_spec (hm : p ∈ q ↔ e.scheduled = true) (hqueue : p ∈ q → e.queue = some s.self)
    (hw : s.curTick ≤ when) (ha : (always || e.scheduled) = true) (hi : e.initialized = true) :
    ∃ (h' : Heap) (head' : Option EventPtr) (h₁ : Heap) (head₁ : Option EventPtr) (e₁ : Event),
      reschedule s p when always = .ok { s with heap := h', head := head' } ∧
      Relinked s.heap h₁ ∧ Queue h₁ head₁ (q.erase p) ∧ e₁.body = e.body ∧
      Changed h₁ h' p (some { e₁ with
        when, queue := some s.self
        flags := set (clear e₁.flags .Squashed) .Scheduled }) ∧
      Queue h' head' (insertSorted h'.key p (q.erase p)) := by
  have hn : p ∉ q.erase p := hq.nodup.not_mem_erase
  by_cases hs : e.scheduled = true
  · obtain ⟨h₁, head₁, hrm, hrel, hq₁⟩ := remove_spec hq hp (hm.mpr hs) (hqueue (hm.mpr hs))
    obtain ⟨e₁, he₁, hbody⟩ := hrel.get hp
    obtain ⟨h', head', heq, hchg, hq'⟩ := place_spec (s := { s with heap := h₁, head := head₁ })
      hq₁ he₁ hn when (fun f => set (clear f .Squashed) .Scheduled)
    refine ⟨h', head', h₁, head₁, e₁, ?_, hrel, hq₁, hbody, hchg, hq'⟩
    rw [← heq]
    simp [reschedule, check, hw, deref_of_get hp, hs, hi, hrm]
  · have hmem : p ∉ q := fun h => hs (hm.mp h)
    rw [List.erase_of_not_mem hmem]
    obtain ⟨h', head', heq, hres⟩ := place_spec hq hp hmem when
      (fun f => set (clear f .Squashed) .Scheduled)
    refine ⟨h', head', s.heap, s.head, e, ?_, .refl _, hq, rfl, hres⟩
    rw [← heq]
    have ha' : always = true := by simpa [hs] using ha
    simp [reschedule, check, hw, deref_of_get hp, hs, hi, ha']

theorem autoDelete_spec (hm : p ∈ q ↔ e.scheduled = true) :
    ∃ h', autoDelete s p = .ok { s with heap := h' } ∧ Queue h' s.head q ∧
      (h' = s.heap ∨ e.scheduled = false ∧ h' = s.heap.free p) := by
  cases hs : e.scheduled with
  | true =>
    refine ⟨s.heap, ?_, hq, .inl rfl⟩
    simp [autoDelete, deref_of_get hp, hs]
  | false =>
    have hn : p ∉ q := fun h => by simp [hm.mp h] at hs
    cases hd : isSet e.flags .AutoDelete with
    | true =>
      refine ⟨s.heap.free p, ?_, hq.free hn, .inr ⟨rfl, rfl⟩⟩
      simp [autoDelete, deref_of_get hp, hs, hd, delete_eq hp hs]
    | false =>
      refine ⟨s.heap, ?_, hq, .inl rfl⟩
      simp [autoDelete, deref_of_get hp, hd]

end

/-- The first event is taken off. -/
theorem Queue.pop (hq : Queue h (some p) (p :: q)) (hp : h.get p = some e) :
    ∃ h' head', Event.popTop h e = .ok (h', head') ∧ Relinked h h' ∧ h'.get p = some e ∧
      Queue h' head' q := by
  obtain ⟨bs, hb, ho, hfl⟩ := hq.bins
  have hnd := List.nodup_cons.mp hq.nodup
  cases hb with
  | @cons _ ps bs e' found below rest =>
  obtain rfl := Option.some.inj (hp.symm.trans found)
  have hfl' : (ps :: bs).flatten = q := (List.cons.inj hfl).2
  obtain ⟨h', head', hpop, hrel, hframe, bs', hbins, hord, hfl''⟩ :=
    popTop_spec below rest (by simpa using ordered_erase ho p) (hfl' ▸ hnd.2)
  refine ⟨h', head', hpop, hrel, ?_, ⟨bs', hbins, hrel.key.symm ▸ hord, hfl''.trans hfl'⟩, hnd.2,
    hrel.bounded hq.bounded⟩
  rw [hframe p (fun hm => hnd.1 ?_), hp]
  rw [← hfl', List.flatten_cons]
  exact List.mem_append_left _ hm

/-- `serviceOne` takes the front event off the queue. Time moves to the event's
only if the event is to be processed; a squashed one may be deleted at once. -/
theorem beginService_spec (hq : Queue s.heap s.head (p :: q)) (hp : s.heap.get p = some e) :
    ∃ h' head' o tick servicing, beginService s =
        .ok { s with heap := h', head := head', curTick := tick, servicing := servicing } ∧
      Changed s.heap h' p o ∧ Retired e o ∧ Queue h' head' q ∧
      ((tick = e.when ∧ servicing = some p) ∨ (tick = s.curTick ∧ servicing = s.servicing)) := by
  have hhead : s.head = some p := hq.head_eq
  have hn : p ∉ q := (List.nodup_cons.mp hq.nodup).1
  rw [hhead] at hq
  have hget := get_set_self s.heap p { e with flags := clear e.flags .Scheduled }
  have hclear : Event.scheduled { e with flags := clear e.flags .Scheduled } = false :=
    isSet_clear_self _ _
  have hq₁ : Queue (s.heap.set p { e with flags := clear e.flags .Scheduled }) (some p)
      (p :: q) := hq.set_same hp rfl rfl rfl
  obtain ⟨h₁, head₁, hpop, hrel, hget₁, hq₂⟩ := hq₁.pop hget
  have hchg := (Changed.set s.heap p _).relinked hrel
  cases hsq : Event.squashed { e with flags := clear e.flags .Scheduled } with
  | false =>
    refine ⟨h₁, head₁, _, e.when, some p, ?_, hchg, ?_, hq₂, .inl ⟨rfl, rfl⟩⟩
    · simp [beginService, hhead, deref_of_get hp, hpop, hsq]
    · rintro _ ⟨⟩
      exact ⟨hclear, Event.initialized_congr (clear_and (by decide) _)⟩
  | true =>
    have hget₂ := get_set_self h₁ p
      { e with flags := clear (clear e.flags .Scheduled) .Squashed }
    have hclear₂ : Event.scheduled
        { e with flags := clear (clear e.flags .Scheduled) .Squashed } = false := by
      refine (isSet_clear_of_and (by decide) _).trans hclear
    have hmod := modify_eq (s := { s with heap := h₁, head := head₁ }) hget₁
      (fun e => { e with flags := clear e.flags .Squashed })
    obtain ⟨h', o, hret, hchg', hun, hq'⟩ := retire_spec
      (s := { s with heap := h₁.set p _, head := head₁ }) (hq₂.set_off hget₁ hn _) hget₂ hn hclear₂
      (isSet (clear (clear e.flags .Scheduled) .Squashed) .AutoDelete)
    refine ⟨h', head₁, o, s.curTick, s.servicing, ?_, (hchg.trans (.set h₁ p _)).trans hchg',
      hun.congr ?_, hq', .inr ⟨rfl, rfl⟩⟩
    · rw [← hret]
      simp [beginService, autoDelete, hhead, deref_of_get hp, hpop, hsq,
        hmod, deref_of_get hget₂, hclear₂]
    · apply Event.initialized_congr
      rw [clear_and (by decide), clear_and (by decide)]

end Gem5.Sim
