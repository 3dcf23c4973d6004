import Gem5.Base.AddrRangeRuns

namespace Gem5.Base.AddrRangeMap

open List AddrRange

variable {V : Type} {m : AddrRangeMap V}

/-- A map that divides addresses among its entries: no address lies in two of
them, and the stripes of an interleaved range are all there. -/
structure Partition (m : AddrRangeMap V) : Prop where
  valid : ∀ e ∈ m.tree, e.1.valid = true
  single : ∀ e ∈ m.tree, ∀ f ∈ m.tree, ∀ a, e.1.contains a = true → f.1.contains a = true → e = f
  complete : ∀ e ∈ m.tree, e.1.interleaved = true → ∀ k < 2 ^ e.1.intlvBits,
    ∃ f ∈ m.tree, e.1.mergesWith f.1 = true ∧ f.1.intlvMatch = k

def owner (m : AddrRangeMap V) (a : Nat) : Option (AddrRange × V) :=
  m.tree.find? (fun e => e.1.contains a)

namespace Partition

theorem owner_eq (h : m.Partition) (he : e ∈ m.tree)
    (ha : e.1.contains a = true) : m.owner a = some e := by
  unfold owner
  cases hf : m.tree.find? (fun e => e.1.contains a) with
  | none => simpa [ha] using find?_eq_none.mp hf e he
  | some f =>
    have hfa : f.1.contains a = true := by simpa using find?_some hf
    rw [h.single f (mem_of_find?_eq_some hf) e he a hfa ha]

/-- Some stripe of an entry's chunk holds any address between its bounds. -/
theorem stripe (h : m.Partition) (he : e ∈ m.tree) (hs : e.1.start ≤ a) (ht : a ≤ e.1.end) :
    ∃ f ∈ m.tree, e.1.mergesWith f.1 = true ∧ f.1.contains a = true := by
  cases hi : e.1.interleaved with
  | false =>
    refine ⟨e, he, ?_, ?_⟩
    · simp [mergesWith]
    · rw [contains_iff]
      exact ⟨hs, ht, by simp [hi]⟩
  | true =>
    obtain ⟨f, hf, hm, hk⟩ := h.complete e he hi _ (e.1.select_lt a)
    obtain ⟨hfs, hfe, _⟩ := (mergesWith_iff _ _).mp hm
    refine ⟨f, hf, hm, (contains_iff _ _).mpr ⟨hfs ▸ hs, hfe ▸ ht, fun _ => ?_⟩⟩
    rw [select_of_mergesWith hm, hk]

/-- Two entries whose bounds share an address belong to one chunk. -/
theorem merges_of_overlap (h : m.Partition) (he : e ∈ m.tree)
    (hf : f ∈ m.tree) (hes : e.1.start ≤ a) (hee : a ≤ e.1.end) (hfs : f.1.start ≤ a)
    (hfe : a ≤ f.1.end) : e.1.mergesWith f.1 = true := by
  obtain ⟨e', he', hme, hea⟩ := h.stripe he hes hee
  obtain ⟨f', hf', hmf, hfa⟩ := h.stripe hf hfs hfe
  obtain rfl := h.single e' he' f' hf' a hea hfa
  exact mergesWith_trans hme (mergesWith_symm hmf)

theorem eq_of_plain (h : m.Partition) (he : e ∈ m.tree) (hf : f ∈ m.tree)
    (hm : e.1.mergesWith f.1 = true) (hp : f.1.interleaved = false) : e = f := by
  obtain ⟨hs, hend, _, _, hb⟩ := (mergesWith_iff _ _).mp hm
  have hpe : e.1.interleaved = false := by
    rw [← hp]
    simp [interleaved, hb]
  have hv : e.1.start ≤ e.1.end := by simpa [AddrRange.valid] using h.valid e he
  apply h.single e he f hf e.1.start
  · rw [AddrRange.contains_iff]
    exact ⟨le_rfl, hv, by simp [hpe]⟩
  · rw [AddrRange.contains_iff]
    exact ⟨hs.le, by omega, by simp [hp]⟩

end Partition

theorem key_single (a : Nat) : (RangeSize a 1).key = toLex (a, 0) := rfl

/-- An entry that starts no later than `a` comes after the query for `a` only as
a later stripe of a chunk that starts there. -/
theorem single_lt_iff {o : AddrRange} {a : Nat} (hs : o.start ≤ a) :
    (RangeSize a 1).key < o.key ↔ o.start = a ∧ o.intlvMatch ≠ 0 := by
  rw [key_single, key, Prod.Lex.toLex_lt_toLex]
  simp only
  omega

theorem start_le_of_single {o : AddrRange} {a : Nat} (h : ¬(RangeSize a 1).key < o.key) :
    o.start ≤ a := by
  rw [key_single, key, Prod.Lex.toLex_lt_toLex] at h
  simp only at h
  omega

theorem head_iff_least (ho : o ∈ m.tree) :
    m.tree.head? = some o ↔ ∀ t ∈ m.tree, o.1.key ≤ t.1.key := by
  have hs := m.sorted
  cases htree : m.tree with
  | nil => simp [htree] at ho
  | cons e tree =>
    rw [htree] at hs
    have he : ∀ t ∈ e :: tree, e.1.key ≤ t.1.key := by
      intro t ht
      rcases mem_cons.mp ht with rfl | ht
      · exact le_rfl
      · exact ((pairwise_cons.mp hs).1 t ht).le
    rw [head?_cons, Option.some_inj]
    constructor
    · rintro rfl
      exact he
    · intro hle
      have hem : e ∈ m.tree := by simp [htree]
      exact key_inj hem ho (le_antisymm (he o (htree ▸ ho)) (hle e (by simp)))

/-- `find(a)` reaches the owner of `a` unless that starts at `a`, is not stripe
zero and is not the first entry of the map. -/
theorem Partition.reached_iff (h : m.Partition) (ho : o ∈ m.tree)
    (ha : o.1.contains a = true) : m.Reached (RangeSize a 1) o ↔
      (o.1.start = a → o.1.intlvMatch = 0 ∨ m.tree.head? = some o) := by
  obtain ⟨hos, hoe, _⟩ := (contains_iff _ _).mp ha
  by_cases hlt : (RangeSize a 1).key < o.1.key
  · obtain ⟨hstart, hmatch⟩ := (single_lt_iff hos).mp hlt
    simp only [hstart, hmatch, false_or, true_imp_iff, head_iff_least ho]
    constructor
    · rintro ⟨_, ⟨_, hleast⟩ | ⟨p, _, hnp, _, hcase⟩⟩
      · exact hleast
      · rcases hcase with rfl | ⟨_, hop, _⟩
        · exact absurd hlt hnp
        · exact absurd (hlt.trans hop) hnp
    · exact fun hleast => ⟨ho, .inl ⟨fun t ht => hlt.trans_le (hleast t ht), hleast⟩⟩
  refine ⟨fun _ hstart => .inl ?_, fun _ => ⟨ho, .inr ?_⟩⟩
  · by_contra hmatch
    exact hlt ((single_lt_iff hos).mpr ⟨hstart, hmatch⟩)
  cases hrev : (m.below (RangeSize a 1)).reverse with
  | nil =>
    have hmem := mem_reverse.mpr ((mem_below ho).mpr hlt)
    rw [hrev] at hmem
    cases hmem
  | cons p before =>
    obtain ⟨hp, hnp, hlast⟩ := below_last hrev
    refine ⟨p, hp, hnp, hlast, ?_⟩
    rcases (hlast o ho hlt).lt_or_eq with hop | hop
    · have hpa := start_le_of_single hnp
      -- an entry between the owner and `p` starts within the owner's bounds
      have hchunk : ∀ t ∈ m.tree, o.1.key ≤ t.1.key → t.1.key ≤ p.1.key →
          t.1.mergesWith o.1 = true := by
        intro t ht hot htp
        have hts := start_le_of_key_le hot
        have htp' := start_le_of_key_le htp
        have htv : t.1.start ≤ t.1.end := by simpa [AddrRange.valid] using h.valid t ht
        exact h.merges_of_overlap ht ho (le_rfl) htv hts (by omega)
      have hpo := hchunk p hp hop.le (le_rfl)
      refine .inr ⟨?_, hop, fun t ht hot htp => ?_⟩
      · by_contra hint
        have heq := h.eq_of_plain ho hp (mergesWith_symm hpo) (by simpa using hint)
        exact absurd hop (heq ▸ lt_irrefl _)
      · exact mergesWith_trans (hchunk t ht hot.le htp)
          (mergesWith_symm hpo)
    · exact .inl (key_inj ho hp hop)

theorem owner_some (h : m.owner a = some o) : o ∈ m.tree ∧ o.1.contains a = true := by
  unfold owner at h
  exact ⟨mem_of_find?_eq_some h, by simpa using find?_some h⟩

/-- Decoding an address finds its owner exactly if the owner does not start at
that very address, or is stripe zero, or is the first entry of the map. -/
theorem findAddr_eq_owner_iff (h : m.Partition) {a : Nat} (ha : a < 2 ^ 64) :
    m.findAddr a = .ok (m.owner a) ↔ ∀ o ∈ m.tree, o.1.contains a = true → o.1.start = a →
      o.1.intlvMatch = 0 ∨ m.tree.head? = some o := by
  have htest : Testable (RangeSize a 1) m.tree :=
    fun e _ => ⟨_, intersects_single e.1 ha⟩
  have hcontains : ∀ e : AddrRange × V, e.1.intersects (RangeSize a 1) = .ok true →
      e.1.contains a = true := by
    intro e he
    rw [intersects_single e.1 ha] at he
    exact Except.ok.inj he
  unfold findAddr
  constructor
  · intro hf o ho hoa
    rw [← h.reached_iff ho hoa]
    rw [h.owner_eq ho hoa] at hf
    rcases find_spec htest with ⟨e, he, hs, _⟩ | ⟨hs, _⟩
    · obtain rfl := Option.some.inj (Except.ok.inj (hs.symm.trans hf))
      exact he
    · simp [hs] at hf
  intro hcond
  rcases find_spec htest with ⟨e, he, hs, hi⟩ | ⟨hs, hn⟩
  · rw [hs, h.owner_eq he.1 (hcontains e hi)]
  rw [hs]
  cases hown : m.owner a with
  | none => rfl
  | some o =>
    obtain ⟨ho, hoa⟩ := owner_some hown
    have hno := hn o ((h.reached_iff ho hoa).mpr (hcond o ho hoa))
    rw [intersects_single o.1 ha, hoa] at hno
    simp at hno

def stripeOf (k : Nat) : AddrRange :=
  { start := 64, «end» := 191, intlvHighBit := 6, xorHighBit := 0, intlvBits := 1, intlvMatch := k }

/-- A plain range below two stripes that start on an odd multiple of their size. -/
def oddStart : AddrRangeMap Nat where
  tree := [(RangeIn 0 63, 0), (stripeOf 0, 1), (stripeOf 1, 2)]
  sorted := by simp [AddrRange.key, RangeIn, stripeOf, Prod.Lex.toLex_lt_toLex]

theorem oddStart_partition : oddStart.Partition where
  valid := by decide
  single := by
    intro e he f hf a hea hfa
    rw [contains_iff] at hea hfa
    simp only [oddStart, mem_cons, not_mem_nil, or_false] at he hf
    have hsel : (stripeOf 0).select a = (stripeOf 1).select a := rfl
    have hlow := hea.2.1
    have hhigh := hfa.2.1
    rcases he with rfl | rfl | rfl <;> rcases hf with rfl | rfl | rfl
    all_goals first
      | rfl
      | (have h₁ := hea.1; have h₂ := hfa.1; simp [RangeIn, stripeOf] at h₁ h₂ hlow hhigh; omega)
      | (have h₁ := hea.2.2 rfl; have h₂ := hfa.2.2 rfl; simp [stripeOf] at h₁ h₂ hsel; omega)
  complete := by
    intro e he hi k hk
    have hpick : e.1.mergesWith (stripeOf k) = true ∧ k < 2 → ∃ f ∈ oddStart.tree,
        e.1.mergesWith f.1 = true ∧ f.1.intlvMatch = k := by
      rintro ⟨hm, hk⟩
      obtain rfl | rfl : k = 0 ∨ k = 1 := by omega
      · exact ⟨(stripeOf 0, 1), by simp [oddStart], hm, rfl⟩
      · exact ⟨(stripeOf 1, 2), by simp [oddStart], hm, rfl⟩
    simp only [oddStart, mem_cons, not_mem_nil, or_false] at he
    rcases he with rfl | rfl | rfl
    · simp [interleaved, RangeIn] at hi
    · exact hpick ⟨rfl, hk⟩
    · exact hpick ⟨rfl, hk⟩

theorem findAddr_second_stripe :
    oddStart.findAddr 65 = .ok (oddStart.owner 65) ∧ oddStart.owner 65 = some (stripeOf 1, 2) := by
  refine ⟨(findAddr_eq_owner_iff oddStart_partition (by decide)).mpr ?_, rfl⟩
  intro o ho _ hs
  simp only [oddStart, mem_cons, not_mem_nil, or_false] at ho
  rcases ho with rfl | rfl | rfl <;> simp [RangeIn, stripeOf] at hs

/-- Address 64 belongs to stripe one, which starts there, and is not found. -/
theorem findAddr_misses_start : oddStart.Partition ∧
    oddStart.owner 64 = some (stripeOf 1, 2) ∧ oddStart.findAddr 64 = .ok none :=
  ⟨oddStart_partition, rfl, rfl⟩

end Gem5.Base.AddrRangeMap
