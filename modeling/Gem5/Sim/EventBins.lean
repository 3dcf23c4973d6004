import Gem5.Sim.EventQueue

namespace Gem5.Sim

open Lib List Event

/-- Bins are ordered by time, then by priority. -/
abbrev Key := Tick ×ₗ Priority

def Event.key (e : Event) : Key := toLex (e.when, e.priority)

theorem Event.lt_iff (l r : Event) : l.lt r = true ↔ l.key < r.key := by
  simp [lt, key, Prod.Lex.toLex_lt_toLex]

theorem Event.le_iff (l r : Event) : l.le r = true ↔ l.key ≤ r.key := by
  simp [le, key, Prod.Lex.toLex_le_toLex]

theorem Event.eq_iff (l r : Event) : l.eq r = true ↔ l.key = r.key := by
  simp [eq, key]

theorem Event.ne_iff (l r : Event) : l.ne r = true ↔ l.key ≠ r.key := by
  simp only [ne, key, Bool.or_eq_true, bne_iff_ne, ne_eq, toLex_inj, Prod.mk.injEq]
  tauto

namespace Heap

theorem deref_of_get {h : Heap} {p : EventPtr} {e : Event} (hp : h.get p = some e) :
    h.deref p = .ok e := by
  simp [deref, hp]

def key (h : Heap) (p : EventPtr) : Key := ((h.get p).map Event.key).getD (toLex (0, 0))

theorem key_of_get {h : Heap} {p : EventPtr} {e : Event} (hp : h.get p = some e) :
    h.key p = e.key := by
  simp [key, hp]

end Heap

/-- The `nextInBin` list from a link, recording the events visited. -/
inductive InBin (h : Heap) : Option EventPtr → List EventPtr → Prop
  | nil : InBin h none []
  | cons {p : EventPtr} {ps : List EventPtr} (e : Event) (found : h.get p = some e)
      (tail : InBin h e.nextInBin ps) : InBin h (some p) (p :: ps)

/-- The list of bins from a link. Only the top event of a bin has a `nextBin`
that means anything: those below it may be stale and are not looked at. -/
inductive Bins (h : Heap) : Option EventPtr → List (List EventPtr) → Prop
  | nil : Bins h none []
  | cons {p : EventPtr} {ps : List EventPtr} {bs : List (List EventPtr)} (e : Event)
      (found : h.get p = some e) (below : InBin h e.nextInBin ps) (rest : Bins h e.nextBin bs) :
      Bins h (some p) ((p :: ps) :: bs)

theorem InBin.mem_get (hb : InBin h r ps) : ∀ p ∈ ps, ∃ e, h.get p = some e := by
  induction hb with
  | nil => simp
  | cons e found _ ih =>
    intro p hp
    rcases mem_cons.mp hp with rfl | hp
    · exact ⟨e, found⟩
    · exact ih p hp

theorem Bins.mem_get (hb : Bins h r bs) : ∀ p ∈ bs.flatten, ∃ e, h.get p = some e := by
  induction hb with
  | nil => simp
  | cons e found below _ ih =>
    intro p hp
    rcases mem_append.mp (flatten_cons ▸ hp) with hp | hp
    · rcases mem_cons.mp hp with rfl | hp
      · exact ⟨e, found⟩
      · exact below.mem_get p hp
    · exact ih p hp

/-- A bin survives any change that keeps the `nextInBin` links of its events. -/
theorem InBin.frame (hb : InBin h r ps) (hk : ∀ p ∈ ps, ∀ e, h.get p = some e →
      ∃ e', h'.get p = some e' ∧ e'.nextInBin = e.nextInBin) : InBin h' r ps := by
  induction hb with
  | nil => exact .nil
  | cons e found _ ih =>
    obtain ⟨e', hf, hn⟩ := hk _ (by simp) e found
    exact .cons e' hf (hn ▸ ih (fun p hp => hk p (by simp [hp])))

theorem Bins.frame (hb : Bins h r bs) (hk : ∀ p ∈ bs.flatten, ∀ e, h.get p = some e →
      ∃ e', h'.get p = some e' ∧ e'.nextInBin = e.nextInBin ∧ e'.nextBin = e.nextBin) :
    Bins h' r bs := by
  induction hb with
  | nil => exact .nil
  | cons e found below _ ih =>
    obtain ⟨e', hf, hn, hb⟩ := hk _ (by simp) e found
    refine .cons e' hf (hn ▸ below.frame ?_) (hb ▸ ih (fun p hp => hk p ?_))
    · intro q hq d hd
      obtain ⟨d', hd', hn', _⟩ := hk q (by simp [hq]) d hd
      exact ⟨d', hd', hn'⟩
    · rw [flatten_cons]
      exact mem_append_right _ hp

theorem InBin.set (hb : InBin h r ps) (e : Event) (hp : p ∉ ps) : InBin (h.set p e) r ps :=
  hb.frame (fun q hq d hd =>
    ⟨d, by rw [Heap.get_set_ne h e (by rintro rfl; exact hp hq), hd], rfl⟩)

theorem Bins.set (hb : Bins h r bs) (e : Event) (hp : p ∉ bs.flatten) : Bins (h.set p e) r bs :=
  hb.frame (fun q hq d hd =>
    ⟨d, by rw [Heap.get_set_ne h e (by rintro rfl; exact hp hq), hd], rfl, rfl⟩)

/-- One key in each bin, and strictly larger keys in later bins. -/
structure Ordered (k : EventPtr → Key) (bs : List (List EventPtr)) : Prop where
  same : ∀ b ∈ bs, ∀ p ∈ b, ∀ q ∈ b, k p = k q
  ascending : bs.Pairwise (fun b c => ∀ p ∈ b, ∀ q ∈ c, k p < k q)

theorem Ordered.tail (h : Ordered k (b :: bs)) : Ordered k bs :=
  ⟨fun c hc => h.same c (.tail _ hc), (pairwise_cons.mp h.ascending).2⟩

theorem Ordered.head_lt (h : Ordered k (b :: bs)) (hp : p ∈ b) (hq : q ∈ bs.flatten) :
    k p < k q := by
  obtain ⟨c, hc, hqc⟩ := mem_flatten.mp hq
  exact (pairwise_cons.mp h.ascending).1 c hc p hp q hqc

theorem Ordered.congr (h : Ordered k bs) (hk : ∀ p ∈ bs.flatten, k' p = k p) : Ordered k' bs := by
  have hm {b : List EventPtr} {p : EventPtr} (hb : b ∈ bs) (hp : p ∈ b) : k' p = k p :=
    hk p (mem_flatten.mpr ⟨b, hb, hp⟩)
  constructor
  · intro b hb p hp q hq
    rw [hm hb hp, hm hb hq]
    exact h.same b hb p hp q hq
  · refine h.ascending.imp_of_mem ?_
    intro b c hb hc hbc p hp q hq
    rw [hm hb hp, hm hc hq]
    exact hbc p hp q hq

theorem Ordered.cons (h : Ordered k bs) (hs : ∀ p ∈ b, ∀ q ∈ b, k p = k q)
    (hl : ∀ p ∈ b, ∀ q ∈ bs.flatten, k p < k q) : Ordered k (b :: bs) := by
  refine ⟨?_, pairwise_cons.mpr ⟨?_, h.ascending⟩⟩
  · intro c hc
    rcases mem_cons.mp hc with rfl | hc
    · exact hs
    · exact h.same c hc
  · intro c hc p hp q hq
    exact hl p hp q (mem_flatten.mpr ⟨c, hc, hq⟩)

/-- Reading the bins from first to last gives the keys in ascending order. -/
theorem Ordered.sorted (h : Ordered k bs) : bs.flatten.Pairwise (fun p q => k p ≤ k q) := by
  induction bs with
  | nil => simp
  | cons b bs ih =>
    rw [flatten_cons, pairwise_append]
    refine ⟨?_, ih h.tail, fun p hp q hq => (h.head_lt hp hq).le⟩
    exact pairwise_of_forall_mem_list (fun p hp q hq => (h.same b (by simp) p hp q hq).le)

/-- Where a last-in first-out insertion goes: in front of the first event whose
key is not smaller. -/
abbrev insertSorted (k : EventPtr → Key) (p : EventPtr) (q : List EventPtr) : List EventPtr :=
  q.orderedInsert (fun a b => k a ≤ k b) p

theorem insertSorted_append (h : ∀ q ∈ l, k q < k p) :
    insertSorted k p (l ++ r) = l ++ insertSorted k p r := by
  induction l with
  | nil => rfl
  | cons a l ih =>
    have ha : ¬k p ≤ k a := not_le.mpr (h a (by simp))
    simp only [cons_append, insertSorted, List.orderedInsert, ha, if_false]
    exact congrArg (List.cons a) (ih (fun q hq => h q (by simp [hq])))

theorem insertSorted_front (h : ∀ a ∈ q, k p ≤ k a) : insertSorted k p q = p :: q := by
  cases q with
  | nil => rfl
  | cons a q =>
    have ha : k p ≤ k a := h a (by simp)
    simp [insertSorted, List.orderedInsert, ha]

/-- What an event holds besides its two links. -/
def Event.body (e : Event) : Event := { e with nextBin := none, nextInBin := none }

/-- Two memories that differ in links only. -/
structure Relinked (h h' : Heap) : Prop where
  size : h'.size = h.size
  body : ∀ p, (h'.get p).map Event.body = (h.get p).map Event.body

namespace Relinked

theorem refl (h : Heap) : Relinked h h := ⟨rfl, fun _ => rfl⟩

theorem trans (a : Relinked h h') (b : Relinked h' h'') : Relinked h h'' :=
  ⟨b.size.trans a.size, fun p => (b.body p).trans (a.body p)⟩

theorem set (hp : h.get p = some e) (he : e'.body = e.body) : Relinked h (h.set p e') := by
  refine ⟨rfl, fun q => ?_⟩
  obtain rfl | hq := eq_or_ne q p
  · simp [hp, he]
  · rw [Heap.get_set_ne h e' hq]

theorem get (r : Relinked h h') (hp : h.get p = some e) :
    ∃ e', h'.get p = some e' ∧ e'.body = e.body := by
  have hb := r.body p
  rw [hp] at hb
  exact Option.map_eq_some_iff.mp hb

theorem key (r : Relinked h h') : h'.key = h.key := by
  funext p
  have hk (o : Option Event) : o.map Event.key = (o.map Event.body).map Event.key := by
    cases o <;> rfl
  unfold Heap.key
  rw [hk, r.body p, ← hk]

end Relinked

end Gem5.Sim
