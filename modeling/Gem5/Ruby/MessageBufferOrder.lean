import Gem5.Ruby.MessageBufferSize

namespace Gem5.Ruby.MessageBuffer

open Lib List

/-- What the heap keeps: it is in order, and no two messages have the same number. -/
structure Ordered (heap : List Message) (counter : Nat) : Prop where
  sorted : heap.Pairwise (fun x y => y.before x = false)
  nodup : (heap.map Message.msgCounter).Nodup
  le_counter : ∀ m ∈ heap, m.msgCounter ≤ counter

theorem perm_pushHeap (m : Message) (heap : List Message) : (pushHeap m heap).Perm (m :: heap) := by
  induction heap with
  | nil => exact .refl _
  | cons x xs ih =>
    unfold pushHeap
    split
    · exact .refl _
    · exact (ih.cons x).trans (.swap m x xs)

theorem mem_pushHeap : x ∈ pushHeap m heap ↔ x = m ∨ x ∈ heap := by
  rw [(perm_pushHeap m heap).mem_iff, mem_cons]

theorem before_eq_false {x y : Message} :
    y.before x = false ↔ x.lastEnqueueTime < y.lastEnqueueTime ∨
      x.lastEnqueueTime = y.lastEnqueueTime ∧ x.msgCounter ≤ y.msgCounter := by
  unfold Message.before
  split <;> simp <;> omega

theorem before_eq_true {x y : Message} : x.before y = true ↔ x.lastEnqueueTime < y.lastEnqueueTime ∨
      x.lastEnqueueTime = y.lastEnqueueTime ∧ x.msgCounter < y.msgCounter := by
  unfold Message.before
  split <;> simp <;> omega

variable {m : Message}

theorem sorted_pushHeap {heap : List Message} (h : heap.Pairwise (fun x y => y.before x = false)) :
    (pushHeap m heap).Pairwise (fun x y => y.before x = false) := by
  induction heap with
  | nil => exact pairwise_singleton _ _
  | cons x xs ih =>
    obtain ⟨hx, hxs⟩ := pairwise_cons.mp h
    unfold pushHeap
    split_ifs with hm
    · refine pairwise_cons.mpr ⟨fun y hy => ?_, h⟩
      have hm := before_eq_true.mp hm
      rcases mem_cons.mp hy with heq | hy
      · subst y
        exact before_eq_false.mpr (by omega)
      · have hxy := before_eq_false.mp (hx y hy)
        exact before_eq_false.mpr (by omega)
    · refine pairwise_cons.mpr ⟨fun y hy => ?_, ih hxs⟩
      rcases mem_pushHeap.mp hy with heq | hy
      · subst y
        exact Bool.eq_false_iff.mpr hm
      · exact hx y hy

theorem Ordered.pop (h : Ordered (x :: heap) c) : Ordered heap c :=
  ⟨(pairwise_cons.mp h.sorted).2, (nodup_cons.mp h.nodup).2,
    fun m hm => h.le_counter m (.tail _ hm)⟩

theorem Ordered.push (h : Ordered heap c)
    (hc : c ≤ c') (hm : m.msgCounter ≤ c') (hnew : m.msgCounter ∉ heap.map Message.msgCounter) :
    Ordered (pushHeap m heap) c' := by
  refine ⟨sorted_pushHeap h.sorted, ?_, fun x hx => ?_⟩
  · exact ((perm_pushHeap m heap).map Message.msgCounter).nodup_iff.mpr
      (nodup_cons.mpr ⟨hnew, h.nodup⟩)
  · rcases mem_pushHeap.mp hx with heq | hx
    · rwa [heq]
    · exact (h.le_counter x hx).trans hc

theorem Ordered.push_fresh (h : Ordered heap c)
    (hm : m.msgCounter = c + 1) : Ordered (pushHeap m heap) (c + 1) := by
  refine h.push (Nat.le_succ c) (hm.le) (fun hmem => ?_)
  obtain ⟨x, hx, heq⟩ := mem_map.mp hmem
  have := h.le_counter x hx
  omega

/-- Recycling gives a message a new time and leaves it its number. -/
theorem Ordered.recycled (h : Ordered (x :: heap) c) :
    Ordered (pushHeap { x with lastEnqueueTime := time } heap) c :=
  h.pop.push (Nat.le_refl c) (h.le_counter x mem_cons_self)
    (nodup_cons.mp h.nodup).1

/-- The calls that `recycle` makes do not put a message back into the cycle it is in. -/
def Op.Delays : Op → Prop
  | .recycle recycleLatency => 0 < recycleLatency
  | _ => True

instance : (op : Op) → Decidable op.Delays
  | .recycle l => inferInstanceAs (Decidable (0 < l))
  | .enqueue .. | .dequeue | .delayHead .. | .stallMessage _ | .reanalyzeMessages _
  | .reanalyzeAllMessages => inferInstanceAs (Decidable True)

variable {b b' : MessageBuffer} {op : Op}

section Heap

/-! What holds of the heap and the number of the last message after every call: it has
to survive taking the front message out, putting in a message with a new number that is
to be dequeued now or later, and recycling the front message. -/

variable {P : List Message → Nat → Prop} {t : Nat}
  (hpop : ∀ x heap c, P (x :: heap) c → P heap c)
  (hpush : ∀ m heap c, P heap c → t ≤ m.lastEnqueueTime → m.msgCounter = c + 1 →
    P (pushHeap m heap) (c + 1))

include hpush in
theorem reanalyzeList_heap (h : P b.prioHeap b.msgCounter) :
    P (reanalyzeList t ms b).prioHeap (reanalyzeList t ms b).msgCounter := by
  induction ms generalizing b with
  | nil => exact h
  | cons m ms ih => exact ih (hpush _ _ _ h (Nat.le_refl t) rfl)

include hpush in
theorem enqueue_heap {delta : Nat} {c : Chance}
    (h : P b.prioHeap b.msgCounter) (hb : b.enqueue m t delta c = some b') :
    P b'.prioHeap b'.msgCounter := by
  unfold enqueue at hb
  dsimp only at hb
  split at hb
  · cases hb
  · rename_i hok
    obtain ⟨m', _, rfl⟩ := Option.map_eq_some_iff.mp hb
    refine hpush _ _ _ h ?_ rfl
    dsimp only
    omega

include hpop in
theorem dequeue_heap (h : P b.prioHeap b.msgCounter) (hb : b.dequeue t = some (m, b')) :
    P b'.prioHeap b'.msgCounter := by
  unfold dequeue at hb
  split at hb
  · cases hb
  rename_i front rest hheap
  rw [hheap] at h
  obtain ⟨m', _, heq⟩ := Option.map_eq_some_iff.mp hb
  cases heq
  have hc : (b.notePop t).msgCounter = b.msgCounter := by
    unfold notePop
    split <;> rfl
  show P rest (b.notePop t).msgCounter
  rw [hc]
  exact hpop front rest _ h

include hpop hpush in
theorem apply_heap (hrecycle : ∀ x heap c latency, op = .recycle latency → P (x :: heap) c →
      P (pushHeap { x with lastEnqueueTime := t + latency } heap) c)
    (h : P b.prioHeap b.msgCounter) (hb : op.apply b t = some b') :
    P b'.prioHeap b'.msgCounter := by
  cases op with
  | enqueue m delta c => exact enqueue_heap hpush h hb
  | dequeue =>
    obtain ⟨⟨m, _⟩, hd, rfl⟩ := Option.map_eq_some_iff.mp hb
    exact dequeue_heap hpop h hd
  | recycle latency =>
    simp only [Op.apply, recycle] at hb
    split at hb
    · cases hb
    · rename_i node rest hheap
      rw [hheap] at h
      split_ifs at hb
      cases hb
      exact hrecycle node rest _ latency rfl h
  | delayHead delta c =>
    simp only [Op.apply, delayHead] at hb
    split at hb
    · cases hb
    · rename_i m rest hheap
      rw [hheap] at h
      exact enqueue_heap hpush (b := { b with prioHeap := rest }) (hpop m rest _ h) hb
  | stallMessage addr =>
    obtain ⟨⟨m, b₁⟩, hd, rfl⟩ := Option.map_eq_some_iff.mp hb
    have : P b₁.prioHeap b₁.msgCounter := dequeue_heap hpop h hd
    exact this
  | reanalyzeMessages addr =>
    simp only [Op.apply, reanalyzeMessages] at hb
    split_ifs at hb
    cases hb
    exact reanalyzeList_heap hpush h
  | reanalyzeAllMessages =>
    cases hb
    exact reanalyzeList_heap hpush h

end Heap

theorem Ordered.apply {t : Nat}
    (h : Ordered b.prioHeap b.msgCounter) (hb : op.apply b t = some b') :
    Ordered b'.prioHeap b'.msgCounter :=
  apply_heap (P := Ordered) (fun _ _ _ h => h.pop) (fun _ _ _ h _ hm => h.push_fresh hm)
    (fun _ _ _ _ _ h => h.recycled) h hb

/-- The messages of a list as they come back into the heap. -/
def woken (time : Nat) : Nat → List Message → List Message
  | _, [] => []
  | c, m :: ms => { m with lastEnqueueTime := time, msgCounter := c + 1 } :: woken time (c + 1) ms

theorem perm_reanalyzeList (time : Nat) (ms : List Message) (b : MessageBuffer) :
    (reanalyzeList time ms b).prioHeap.Perm (woken time b.msgCounter ms ++ b.prioHeap) := by
  induction ms generalizing b with
  | nil => exact .refl _
  | cons m ms ih =>
    refine (ih _).trans ?_
    exact ((perm_pushHeap _ _).append_left _).trans perm_middle

theorem msgCounter_reanalyzeList (time : Nat) (ms : List Message) (b : MessageBuffer) :
    (reanalyzeList time ms b).msgCounter = b.msgCounter + ms.length := by
  induction ms generalizing b with
  | nil => rfl
  | cons m ms ih =>
    rw [reanalyzeList, ih, length_cons]
    dsimp only
    omega

theorem map_id_woken (time c : Nat) (ms : List Message) :
    (woken time c ms).map Message.id = ms.map Message.id := by
  induction ms generalizing c with
  | nil => rfl
  | cons m ms ih => rw [woken, map_cons, map_cons, ih]

theorem mem_woken (h : w ∈ woken time c ms) :
    w.lastEnqueueTime = time ∧ c < w.msgCounter ∧ w.msgCounter ≤ c + ms.length := by
  induction ms generalizing c with
  | nil => cases h
  | cons m ms ih =>
    rw [length_cons]
    rcases mem_cons.mp h with heq | h
    · subst w
      refine ⟨rfl, ?_, ?_⟩ <;> dsimp only <;> omega
    · obtain ⟨htime, hlo, hhi⟩ := ih h
      exact ⟨htime, by omega, by omega⟩

/-- Numbers go up along the woken messages, so they tell the order of stalling. -/
theorem sublist_woken (hx : x ∈ woken time c ms) (hy : y ∈ woken time c ms)
    (hlt : x.msgCounter < y.msgCounter) :
    [x, y].Sublist (woken time c ms) := by
  induction ms generalizing c with
  | nil => cases hx
  | cons m ms ih =>
    rw [woken] at hx hy ⊢
    rcases mem_cons.mp hy with heq | hy
    · -- `y` has the lowest number of all
      have hge : c + 1 ≤ x.msgCounter := by
        rcases mem_cons.mp hx with hx | hx
        · rw [hx]
        · have := (mem_woken hx).2.1
          omega
      rw [heq] at hlt
      dsimp only at hlt
      omega
    · rcases mem_cons.mp hx with heq | hx
      · exact heq ▸ (singleton_sublist.mpr hy).cons_cons _
      · exact (ih hx hy).cons _

/-- The place of the woken messages in the heap: what is in front of one of them was
due before `time`, or was stalled before it. -/
def Placed (time : Nat) (awake heap : List Message) : Prop :=
  heap.Pairwise (fun x y => y ∈ awake → x.lastEnqueueTime < time ∨ [x, y].Sublist awake)

/-- Every message that is due at the time of the wakeup is one of those woken, or was put
in after them. -/
structure Behind (time : Nat) (awake heap : List Message) (counter : Nat) : Prop where
  ordered : Ordered heap counter
  awake_le : ∀ w ∈ awake, w.msgCounter ≤ counter
  due : ∀ x ∈ heap, x.lastEnqueueTime = time → x ∈ awake ∨ ∀ w ∈ awake, w.msgCounter < x.msgCounter

theorem Behind.apply {time t : Nat} {awake : List Message}
    (h : Behind time awake b.prioHeap b.msgCounter) (ht : time ≤ t) (hop : op.Delays)
    (hb : op.apply b t = some b') : Behind time awake b'.prioHeap b'.msgCounter := by
  refine apply_heap (P := Behind time awake) ?_ ?_ ?_ h hb
  · intro x heap c h
    exact ⟨h.ordered.pop, h.awake_le, fun y hy => h.due y (.tail _ hy)⟩
  · intro m heap c h _ hm
    refine ⟨h.ordered.push_fresh hm, fun w hw => (h.awake_le w hw).trans (Nat.le_succ c), ?_⟩
    intro x hx hdue
    rcases mem_pushHeap.mp hx with heq | hx
    · refine .inr (fun w hw => ?_)
      have := h.awake_le w hw
      rw [heq, hm]
      omega
    · exact h.due x hx hdue
  · intro m heap c latency hrec h
    subst op
    refine ⟨h.ordered.recycled, h.awake_le, ?_⟩
    intro x hx hdue
    rcases mem_pushHeap.mp hx with heq | hx
    · subst x
      have hpos : 0 < latency := hop
      dsimp only at hdue
      omega
    · exact h.due x (.tail _ hx) hdue

theorem Behind.placed {time c c₀ : Nat} {ms heap : List Message}
    (h : Behind time (woken time c₀ ms) heap c) : Placed time (woken time c₀ ms) heap := by
  have hdistinct := pairwise_map.mp h.ordered.nodup
  refine (h.ordered.sorted.and hdistinct).imp_of_mem ?_
  intro x y hx _ hxy hy
  obtain ⟨hle, hne⟩ := hxy
  have hyt := (mem_woken hy).1
  rcases before_eq_false.mp hle with hlt | hle
  · exact .inl (by omega)
  · rcases h.due x hx (hle.1.trans hyt) with hxw | hafter
    · exact .inr (sublist_woken hxw hy (by omega))
    · have := hafter y hy
      omega

end Gem5.Ruby.MessageBuffer
