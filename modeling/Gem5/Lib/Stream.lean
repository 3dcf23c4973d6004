import Gem5.Lib.PriorityQueue

namespace Lib

open List

/-- The elements of a class that a priority queue holds are a stretch of a sequence of
tags: taken out in the order `lt`, they bear the tags from `lo` up to `hi`. -/
def Stream {α : Type u} {τ : Type v} (lt : α → α → Prop) (cls : α → Bool) (tag : α → τ)
    (seq : Nat → τ) (items : List α) (lo hi : Nat) : Prop :=
  lo ≤ hi ∧ ∃ l : List α, l.Perm (items.filter cls) ∧ l.Pairwise lt ∧
    l.map tag = (List.range' lo (hi - lo)).map seq

namespace Stream

variable {α : Type u} {τ : Type v} {lt : α → α → Prop} {cls : α → Bool} {tag : α → τ}
  {seq : Nat → τ} {items : List α} {lo hi : Nat}

theorem le (h : Stream lt cls tag seq items lo hi) : lo ≤ hi := h.1

theorem of_absent (h : ∀ a ∈ items, cls a = false) (k : Nat) : Stream lt cls tag seq items k k := by
  refine ⟨Nat.le_refl k, [], ?_, .nil, by simp⟩
  rw [filter_eq_nil_iff.mpr (fun a ha => by simp [h a ha])]

section

variable (h : Stream lt cls tag seq items lo hi)
include h

theorem countP : items.countP cls = hi - lo := by
  obtain ⟨-, l, hperm, -, hmap⟩ := h
  have := congrArg List.length hmap
  rw [length_map, length_map, length_range'] at this
  rw [countP_eq_length_filter, ← hperm.length_eq, this]

/-- An empty stretch: there is no element of the class. -/
theorem absent (heq : lo = hi) : ∀ a ∈ items, cls a = false := by
  intro a ha
  have hcount := h.countP
  rw [heq, Nat.sub_self, countP_eq_zero] at hcount
  exact Bool.eq_false_iff.mpr (hcount a ha)

/-- Where there is no element of the class, the tags do not matter. -/
theorem reset (heq : lo = hi) (k : Nat) :
    Stream lt cls tag seq' items k k := of_absent (h.absent heq) k

theorem tag_of_mem (ha : a ∈ items)
    (hcls : cls a = true) : ∃ i, lo ≤ i ∧ i < hi ∧ tag a = seq i := by
  obtain ⟨hle, l, hperm, -, hmap⟩ := h
  have hmem : tag a ∈ l.map tag :=
    mem_map_of_mem (hperm.mem_iff.mpr (mem_filter.mpr ⟨ha, hcls⟩))
  rw [hmap] at hmem
  obtain ⟨i, hi, heq⟩ := mem_map.mp hmem
  have := mem_range'_1.mp hi
  exact ⟨i, by omega, by omega, heq.symm⟩

theorem perm (hperm : items'.Perm items) : Stream lt cls tag seq items' lo hi := by
  obtain ⟨hle, l, hl, hrest⟩ := h
  exact ⟨hle, l, hl.trans (hperm.symm.filter cls), hrest⟩

/-- Another class. -/
theorem push_other (ha : cls a = false) : Stream lt cls tag seq (a :: items) lo hi := by
  obtain ⟨hle, l, hl, hrest⟩ := h
  refine ⟨hle, l, ?_, hrest⟩
  rwa [filter_cons_of_neg (by simp [ha])]

end

theorem pop_other (h : Stream lt cls tag seq (a :: items) lo hi) (ha : cls a = false) :
    Stream lt cls tag seq items lo hi := by
  obtain ⟨hle, l, hl, hrest⟩ := h
  refine ⟨hle, l, ?_, hrest⟩
  rwa [filter_cons_of_neg (by simp [ha])] at hl

/-- The next tag, on an element that comes after the others of its class. -/
theorem push (h : Stream lt cls tag seq items lo hi) (ha : cls a = true)
    (htag : tag a = seq hi) (hlast : ∀ b ∈ items, cls b = true → lt b a) :
    Stream lt cls tag seq (a :: items) lo (hi + 1) := by
  obtain ⟨hle, l, hl, hpair, hmap⟩ := h
  refine ⟨by omega, l ++ [a], ?_, ?_, ?_⟩
  · rw [filter_cons_of_pos ha]
    exact (perm_append_comm).trans (hl.cons a)
  · refine pairwise_append.mpr ⟨hpair, pairwise_singleton _ _, fun b hb c hc => ?_⟩
    obtain ⟨hb, hcls⟩ := mem_filter.mp (hl.mem_iff.mp hb)
    rw [mem_singleton.mp hc]
    exact hlast b hb hcls
  · have hlen : hi + 1 - lo = (hi - lo) + 1 := by omega
    rw [map_append, hmap, hlen, range'_concat, map_append]
    simp only [map_cons, map_nil, htag, one_mul]
    congr 3
    omega

/-- The front element of its class bears the first tag. -/
theorem pop (h : Stream lt cls tag seq (a :: items) lo hi) (ha : cls a = true)
    (hmin : ∀ b ∈ items, ¬ lt b a) :
    lo < hi ∧ tag a = seq lo ∧ Stream lt cls tag seq items (lo + 1) hi := by
  obtain ⟨hle, l, hl, hpair, hmap⟩ := h
  rw [filter_cons_of_pos ha] at hl
  cases l with
  | nil => exact absurd (hl.symm.eq_nil) (cons_ne_nil _ _)
  | cons b l =>
    obtain ⟨hb, hpair⟩ := pairwise_cons.mp hpair
    -- the element is the first of its class, for it does not come after any other
    have hba : b = a := by
      rcases mem_cons.mp (hl.mem_iff.mpr mem_cons_self) with heq | hmem
      · exact heq.symm
      · have hlt := hb a hmem
        cases mem_cons.mp (hl.mem_iff.mp mem_cons_self) with
        | inl heq => exact heq
        | inr hb' => exact absurd hlt (hmin b (mem_filter.mp hb').1)
    subst hba
    have hpos : lo < hi := by
      by_contra hnot
      have : hi - lo = 0 := by omega
      rw [this] at hmap
      cases hmap
    have hlen : hi - lo = (hi - (lo + 1)) + 1 := by omega
    rw [hlen, range'_succ, map_cons, map_cons] at hmap
    obtain ⟨htag, hmap⟩ := List.cons.inj hmap
    exact ⟨hpos, htag, hpos, l, hl.cons_inv, hpair, hmap⟩

/-! ### In a priority queue -/

variable {H : HeapOps α lt} {q q' : PQueue H} {a : α}

section

variable (h : Stream lt cls tag seq q.items lo hi)
include h

theorem insert (ha : cls a = true) (htag : tag a = seq hi)
    (hlast : ∀ b ∈ q.items, cls b = true → lt b a) :
    Stream lt cls tag seq (q.insert a).items lo (hi + 1) :=
  (h.push ha htag hlast).perm (q.perm_insert a)

theorem insert_other (ha : cls a = false) : Stream lt cls tag seq (q.insert a).items lo hi :=
  (h.push_other ha).perm (q.perm_insert a)

theorem drop (hfront : q.front = some a) (ha : cls a = true) :
    lo < hi ∧ tag a = seq lo ∧ Stream lt cls tag seq q.drop.items (lo + 1) hi := by
  obtain ⟨hperm, hmin⟩ := PQueue.front_eq_some hfront
  exact (h.perm hperm.symm).pop ha hmin

theorem takeIf (hq : q.takeIf p = some (a, q')) (ha : cls a = true) :
    lo < hi ∧ tag a = seq lo ∧ Stream lt cls tag seq q'.items (lo + 1) hi := by
  obtain ⟨-, hperm, hmin⟩ := PQueue.takeIf_eq_some hq
  exact (h.perm hperm.symm).pop ha hmin

theorem takeIf_other (hq : q.takeIf p = some (a, q')) (ha : cls a = false) :
    Stream lt cls tag seq q'.items lo hi := by
  obtain ⟨-, hperm, -⟩ := PQueue.takeIf_eq_some hq
  exact (h.perm hperm.symm).pop_other ha

end

end Stream

end Lib
