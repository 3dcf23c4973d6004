import Gem5.Base.AddrRangeFind

namespace Gem5.Base

namespace AddrRange

variable {r s t : AddrRange}

/-- Two stripes of one interleaved chunk. -/
def SameChunk (r s : AddrRange) : Prop := r.interleaved = true ∧ r.mergesWith s = true

def Apart (r s : AddrRange) : Prop := r.end < s.start ∨ s.end < r.start ∨ r.SameChunk s

instance : Decidable (r.SameChunk s) := inferInstanceAs (Decidable (_ ∧ _))

theorem SameChunk.symm (h : r.SameChunk s) : s.SameChunk r := by
  refine ⟨?_, mergesWith_symm h.2⟩
  obtain ⟨_, _, _, _, hbits⟩ := (mergesWith_iff r s).mp h.2
  unfold interleaved
  rw [hbits]
  exact h.1

theorem SameChunk.trans (h : r.SameChunk s) (h' : s.SameChunk t) : r.SameChunk t :=
  ⟨h.1, mergesWith_trans h.2 h'.2⟩

theorem Apart.symm (h : r.Apart s) : s.Apart r := by
  rcases h with h | h | h
  · exact .inr (.inl h)
  · exact .inl h
  · exact .inr (.inr h.symm)

theorem intersects_of_lt (h : r.end < s.start ∨ s.end < r.start) : s.intersects r = .ok false := by
  simp [intersects, h]

/-- Where the spans overlap, a plain range of one address is tested by `contains`,
two stripes of a chunk by their match, and nothing else can be told apart. -/
theorem overlap_of_not_intersects (h : s.intersects r = .ok false) (h₁ : ¬r.end < s.start)
    (h₂ : ¬s.end < r.start) : (s.interleaved = true ∨ r.interleaved = true) ∧
      (r.size = 1 ∨ s.mergesWith r = true) := by
  simp only [intersects, gt_iff_lt, h₁, h₂, decide_false, Bool.or_false] at h
  grind

theorem SameChunk.intersects_iff (h : s.SameChunk r) (hr : r.size ≠ 1)
    (hv : r.start ≤ r.end) : s.intersects r = .ok true ↔ s.key = r.key := by
  obtain ⟨hstart, hend, _⟩ := (mergesWith_iff s r).mp h.2
  have h₁ : ¬s.end < s.start := by omega
  simp [intersects, h₁, h.1, h.2, hr, key, hstart, hend]

end AddrRange

namespace AddrRangeMap

open List Except AddrRange Lib

variable {V : Type} {m : AddrRangeMap V} {r : AddrRange}

inductive Op (V : Type)
  | insert (r : AddrRange) (d : V)
  | erase (p : Nat)
  | eraseRange (p q : Nat)
  | clear

def Op.apply (m : AddrRangeMap V) : Op V → Res (AddrRangeMap V)
  | .insert r d => m.insert r d
  | .erase p => .ok (m.erase p)
  | .eraseRange p q => .ok (m.eraseRange p q)
  | .clear => .ok empty

/-- What a caller may do: insert only valid ranges that can be tested against
those stored. -/
def Op.Allowed (m : AddrRangeMap V) : Op V → Prop
  | .insert r _ => r.valid = true ∧ Testable r m.tree
  | _ => True

def machine (V : Type) : Lib.Machine (AddrRangeMap V) (Op V) where
  init m := m.tree = []
  step m op m' := op.Allowed m ∧ op.apply m = .ok m'

section

variable (m : AddrRangeMap V)
include m

def Meets (r : AddrRange) : Prop :=
  ∃ e ∈ m.tree, e.1.intersects r = .ok true

def Disjoint : Prop :=
  ∀ e ∈ m.tree, ∀ f ∈ m.tree, e ≠ f → e.1.intersects f.1 ≠ .ok true

/-- The entry that `find` tests first. -/
def neighbour (r : AddrRange) : Option (AddrRange × V) :=
  (m.below r).getLast?.or (m.above r).head?

/-- What makes an insertion or a lookup of `r` safe: one condition on `r` alone, one
on the holes of the stored chunks, and one on the successor of `r`, which `find`
does not test. -/
@[mk_iff] structure SafeRange (r : AddrRange) : Prop where
  sized : r.interleaved = true → r.size ≠ 1
  holes : r.size = 1 → (∃ e ∈ m.tree, e.1.interleaved = true ∧ e.1.start ≤ r.end ∧
    r.start ≤ e.1.end) → m.Meets r
  ahead : ∀ s ∈ (m.above r).head?, r.end < s.1.start ∨ s.1.SameChunk r ∨
    ∃ p ∈ m.neighbour r, p.1.intersects r = .ok true

end

theorem find_eq_end_iff (h : Testable r m.tree) :
    m.find r = .ok none ↔ ∀ e, m.Reached r e → e.1.intersects r = .ok false := by
  rcases find_spec h with ⟨e, he, hs, hi⟩ | ⟨hs, hn⟩
  · simp only [hs, ok.injEq, reduceCtorEq, false_iff, not_forall]
    exact ⟨e, he, by simp [hi]⟩
  · exact ⟨fun _ => hn, fun _ => hs⟩

theorem meets_of_find (h : Testable r m.tree) (hf : m.find r = .ok (some e)) : m.Meets r := by
  rcases find_spec h with ⟨f, hf', _, hi⟩ | ⟨hs, _⟩
  · exact ⟨f, hf'.1, hi⟩
  · simp [hs] at hf

theorem insert_of_find_end (hf : m.find r = .ok none) :
    m.insert r d = .ok { tree := insertTree r d m.tree, sorted := insertTree_sorted m.sorted } := by
  simp [insert, intersect, hf]

theorem insert_of_find (hf : m.find r = .ok (some e)) : m.insert r d = .ok m := by
  simp [insert, intersect, hf]

theorem insertTree_length {tree : List (AddrRange × V)} {d : V}
    (hs : tree.Pairwise (fun e f => e.1.key < f.1.key)) :
    (insertTree r d tree).length = tree.length + 1 ↔ ¬∃ e ∈ tree, e.1.key = r.key := by
  induction tree with
  | nil => simp [insertTree]
  | cons f tree ih =>
    obtain ⟨hf, hs'⟩ := pairwise_cons.mp hs
    unfold insertTree
    split
    · rename_i hlt
      have hrf := (lt_iff _ _).mp hlt
      simp only [length_cons, mem_cons, true_iff, not_exists, not_and]
      rintro e (rfl | he) heq
      · exact absurd hrf (heq ▸ lt_irrefl _)
      · exact absurd (hrf.trans (hf e he)) (heq ▸ lt_irrefl _)
    rename_i hnlt
    split_ifs with hlt
    · have hfr := (lt_iff _ _).mp hlt
      rw [length_cons, length_cons, Nat.add_right_cancel_iff, ih hs']
      simp only [mem_cons, exists_eq_or_imp, not_or]
      exact ⟨fun h => ⟨hfr.ne, h⟩, fun h => h.2⟩
    · rw [lt_iff] at hnlt hlt
      have heq : f.1.key = r.key := le_antisymm (not_lt.mp hnlt) (not_lt.mp hlt)
      simp only [length_cons, Nat.left_eq_add, Nat.one_ne_zero, false_iff, not_not]
      exact ⟨f, by simp, heq⟩

/-- The call adds an entry to the map. -/
def Adds (m : AddrRangeMap V) (r : AddrRange) (d : V) : Prop :=
  ∃ m', m.insert r d = .ok m' ∧ m'.tree.length = m.tree.length + 1

theorem adds_iff {d : V} (h : Testable r m.tree) :
    m.Adds r d ↔ m.find r = .ok none ∧ ¬∃ e ∈ m.tree, e.1.key = r.key := by
  unfold Adds
  rcases find_spec h with ⟨e, _, hf, _⟩ | ⟨hf, _⟩
  · rw [insert_of_find hf, hf]
    constructor
    · rintro ⟨m', hm, hlen⟩
      obtain rfl := ok.inj hm
      omega
    · exact fun ⟨hn, _⟩ => by simp at hn
  · rw [insert_of_find_end hf, hf]
    constructor
    · rintro ⟨m', hm, hlen⟩
      obtain rfl := ok.inj hm
      exact ⟨rfl, (insertTree_length m.sorted).mp hlen⟩
    · exact fun ⟨_, hk⟩ => ⟨_, rfl, (insertTree_length m.sorted).mpr hk⟩

def Op.Safe (m : AddrRangeMap V) : Op V → Prop
  | .insert r _ => m.SafeRange r
  | _ => True

/-- The stored ranges lie one behind the other, apart from those of one chunk. -/
structure Spaced (m : AddrRangeMap V) : Prop where
  valid : ∀ e ∈ m.tree, e.1.start ≤ e.1.end
  sized : ∀ e ∈ m.tree, e.1.interleaved = true → e.1.size ≠ 1
  apart : ∀ e ∈ m.tree, ∀ f ∈ m.tree, e = f ∨ e.1.Apart f.1

theorem Spaced.disjoint (h : m.Spaced) : m.Disjoint := by
  intro e he f hf hne hint
  rcases (h.apart e he f hf).resolve_left hne with hlt | hlt | hch
  · simp [intersects_of_lt (.inr hlt)] at hint
  · simp [intersects_of_lt (.inl hlt)] at hint
  · have hsize := h.sized f hf hch.symm.1
    exact hne (key_inj he hf ((hch.intersects_iff hsize (h.valid f hf)).mp hint))

theorem Spaced.sublist {m' : AddrRangeMap V} (h : m.Spaced) (hs : m'.tree.Sublist m.tree) :
    m'.Spaced where
  valid e he := h.valid e (hs.subset he)
  sized e he := h.sized e (hs.subset he)
  apart e he f hf := h.apart e (hs.subset he) f (hs.subset hf)

theorem above_least (hs : s ∈ (m.above r).head?) : s ∈ m.tree ∧
    ∀ e ∈ m.tree, r.key < e.1.key → s.1.key ≤ e.1.key := by
  obtain ⟨above, hab⟩ : ∃ above, m.above r = s :: above := by
    cases hab : m.above r with
    | nil => simp [hab] at hs
    | cons f above => exact ⟨above, by simp_all⟩
  have htree := m.below_append_above r
  have hsort := m.sorted
  rw [← htree, hab, pairwise_append, pairwise_cons] at hsort
  refine ⟨by rw [← htree, hab]; simp, fun e he hlt => ?_⟩
  rw [← htree, mem_append, hab, mem_cons] at he
  rcases he with he | rfl | he
  · exact absurd hlt ((mem_below (m.below_subset r he)).mp he)
  · exact le_rfl
  · exact (hsort.2.1.1 e he).le

theorem reached_neighbour (hp : p ∈ m.neighbour r) : m.Reached r p := by
  rw [← mem_examined]
  unfold neighbour at hp
  unfold examined
  rw [getLast?_eq_head?_reverse] at hp
  cases hrev : (m.below r).reverse with
  | nil =>
    cases hab : m.above r with
    | nil => simp [hrev, hab] at hp
    | cons i above => simp_all
  | cons i before => simp_all

/-- A range before `r` in the map that intersects it is the predecessor or lies in
its chunk, and is reached either way. -/
theorem Spaced.reached_below (h : m.Spaced) (he : e ∈ m.tree) (hle : ¬r.key < e.1.key)
    (hint : e.1.intersects r = .ok true) : m.Reached r e := by
  cases hrev : (m.below r).reverse with
  | nil =>
    have hmem := mem_reverse.mpr ((mem_below he).mpr hle)
    rw [hrev] at hmem
    cases hmem
  | cons p before =>
    obtain ⟨hp, hnp, hlast⟩ := below_last hrev
    have hep := hlast e he hle
    refine ⟨he, .inr ⟨p, hp, hnp, hlast, ?_⟩⟩
    -- nothing but the chunk of `p` fits between two of its stripes
    have hpr := start_le_of_key_le (not_lt.mp hnp)
    have hstart := start_le_of_key_le hep
    have hpv := h.valid p hp
    rcases h.apart e he p hp with rfl | hlt | hlt | hch
    · exact .inl rfl
    · rw [intersects_of_lt (.inr (hlt.trans_le hpr))] at hint
      cases hint
    · omega
    by_cases heq : e.1.key = p.1.key
    · exact .inl (key_inj he hp heq)
    refine .inr ⟨hch.symm.1, lt_of_le_of_ne hep heq, fun t ht het htp => ?_⟩
    have h₁ := start_le_of_key_le het.le
    have h₂ := start_le_of_key_le htp
    have h₃ := ((mergesWith_iff _ _).mp hch.2).1
    have htv := h.valid t ht
    rcases h.apart t ht p hp with rfl | hlt | hlt | hch'
    · simp [mergesWith_iff]
    · omega
    · omega
    · exact hch'.2

/-- No range after `r` in the map intersects it if the successor does not. -/
theorem Spaced.not_intersects_above (h : m.Spaced) (hsized : r.interleaved = true → r.size ≠ 1)
    (hv : r.start ≤ r.end) (hs : s ∈ (m.above r).head?) (hsr : r.end < s.1.start ∨ s.1.SameChunk r)
    (he : e ∈ m.tree) (hlt : r.key < e.1.key) : e.1.intersects r ≠ .ok true := by
  intro hint
  obtain ⟨hst, hleast⟩ := above_least hs
  have hse := start_le_of_key_le (hleast e he hlt)
  have hchunk : e.1.SameChunk r → False := fun hch =>
    hlt.ne' ((hch.intersects_iff (hsized hch.symm.1) hv).mp hint)
  rcases hsr with hend | hch
  · simp [intersects_of_lt (.inl (hend.trans_le hse))] at hint
  obtain ⟨hstart, hend, _⟩ := (mergesWith_iff _ _).mp hch.2
  have hev := h.valid e he
  rcases h.apart e he s hst with rfl | hlt' | hlt' | hch'
  · exact hchunk hch
  · omega
  · simp [intersects_of_lt (.inl (hend ▸ hlt'))] at hint
  · exact hchunk (hch'.trans hch)

/-- In a spaced map the predecessor suffices: if it and its chunk do not intersect
`r`, and the successor starts behind `r`, nothing stored does. -/
theorem Spaced.find_right (h : m.Spaced) (ht : Testable r m.tree) (hs : m.SafeRange r)
    (hv : r.start ≤ r.end) (hf : m.find r = .ok none) : ¬m.Meets r := by
  rintro ⟨e, he, hint⟩
  have hno : ∀ e, m.Reached r e → e.1.intersects r ≠ .ok true := by
    intro e he hint
    simp [(find_eq_end_iff ht).mp hf e he] at hint
  by_cases hlt : r.key < e.1.key
  · obtain ⟨s, hs'⟩ : ∃ s, s ∈ (m.above r).head? := by
      cases hab : m.above r with
      | nil =>
        have hmem := m.below_append_above r
        rw [hab, append_nil] at hmem
        exact absurd hlt ((mem_below he).mp (hmem ▸ he))
      | cons s above => exact ⟨s, rfl⟩
    rcases hs.ahead s hs' with hend | hch | ⟨p, hp, hip⟩
    · exact h.not_intersects_above hs.sized hv hs' (.inl hend) he hlt hint
    · exact h.not_intersects_above hs.sized hv hs' (.inr hch) he hlt hint
    · exact hno p (reached_neighbour hp) hip
  · exact hno e (h.reached_below he hlt hint) hint

/-- A range that no stored one intersects lies apart from all of them. -/
theorem SafeRange.apart (hs : m.SafeRange r) (ht : Testable r m.tree) (hno : ¬m.Meets r)
    (he : e ∈ m.tree) : e.1.Apart r := by
  obtain ⟨b, hb⟩ := ht e he
  have hint : e.1.intersects r = .ok false := by
    cases b with
    | true => exact absurd ⟨e, he, hb⟩ hno
    | false => exact hb
  by_contra hap
  obtain ⟨h₁, h₂, h₃⟩ : ¬e.1.end < r.start ∧ ¬r.end < e.1.start ∧ ¬e.1.SameChunk r := by
    simpa [Apart] using hap
  obtain ⟨hil, hr | hm⟩ := overlap_of_not_intersects hint h₂ h₁
  · rcases hil with hil | hil
    · exact hno (hs.holes hr ⟨e, he, hil, not_lt.mp h₂, not_lt.mp h₁⟩)
    · exact hs.sized hil hr
  · rcases hil with hil | hil
    · exact h₃ ⟨hil, hm⟩
    · exact h₃ (SameChunk.symm ⟨hil, mergesWith_symm hm⟩)

/-- A stored range with the key of `r` intersects it. -/
theorem Spaced.fresh (h : m.Spaced) (hs : m.SafeRange r) (ht : Testable r m.tree)
    (hv : r.start ≤ r.end) (hno : ¬m.Meets r) : ¬∃ e ∈ m.tree, e.1.key = r.key := by
  rintro ⟨e, he, hkey⟩
  have hstart : e.1.start = r.start := congrArg (fun k => (ofLex k).1) hkey
  have hev := h.valid e he
  rcases hs.apart ht hno he with hlt | hlt | hch
  · omega
  · omega
  · exact hno ⟨e, he, (hch.intersects_iff (hs.sized hch.symm.1) hv).mpr hkey⟩

theorem Spaced.insert (h : m.Spaced) (hs : m.SafeRange r) (ht : Testable r m.tree)
    (hv : r.start ≤ r.end) (hi : m.insert r d = .ok m') : m'.Spaced := by
  rcases find_spec ht with ⟨e, _, hf, _⟩ | ⟨hf, _⟩
  · rw [insert_of_find hf] at hi
    obtain rfl := ok.inj hi
    exact h
  have hap := fun e he => hs.apart (e := e) ht (h.find_right ht hs hv hf) he
  rw [insert_of_find_end hf] at hi
  obtain rfl := ok.inj hi
  refine ⟨fun e he => ?_, fun e he => ?_, fun e he f hf => ?_⟩
  · rcases mem_insertTree he with rfl | he
    · exact hv
    · exact h.valid e he
  · rcases mem_insertTree he with rfl | he
    · exact hs.sized
    · exact h.sized e he
  · rcases mem_insertTree he with rfl | he
    · rcases mem_insertTree hf with rfl | hf
      · exact .inl rfl
      · exact .inr (hap f hf).symm
    · rcases mem_insertTree hf with rfl | hf
      · exact .inr (hap e he)
      · exact h.apart e he f hf

theorem safe_step_spaced (h : m.Spaced)
    (hs : ((machine V).restrict Op.Safe).step m op m') : m'.Spaced := by
  obtain ⟨⟨hallowed, hok⟩, hsafe⟩ := hs
  cases op with
  | insert r d => exact h.insert hsafe hallowed.2 (by simpa [valid] using hallowed.1) hok
  | erase p =>
    obtain rfl := ok.inj hok
    exact h.sublist (eraseIdx_sublist _ _)
  | eraseRange p q =>
    obtain rfl := ok.inj hok
    exact h.sublist (m.eraseRange_sublist p q)
  | clear =>
    obtain rfl := ok.inj hok
    exact h.sublist (nil_sublist _)

/-- In every run whose insertions are safe the stored ranges stay disjoint, and in
every state reached, `insert` adds a safe range exactly if no stored one intersects
it, and `find` returns `end()` for it only then. -/
theorem safe_run_disjoint (h : ((machine V).restrict Op.Safe).Reachable m) :
    m.Disjoint ∧ ∀ (r : AddrRange) (d : V), r.valid = true → Testable r m.tree → m.SafeRange r →
      (m.Adds r d ↔ ¬m.Meets r) ∧ (m.find r = .ok none → ¬m.Meets r) := by
  have hsp : m.Spaced := by
    apply h.invariant (I := Spaced)
    · intro m hm
      have htree : m.tree = [] := hm
      constructor <;> simp [htree]
    · exact fun m op m' hd hs => safe_step_spaced hd hs
  refine ⟨hsp.disjoint, fun r d hv ht hs => ?_⟩
  rw [valid, decide_eq_true_eq] at hv
  have hright := hsp.find_right ht hs hv
  refine ⟨?_, hright⟩
  rw [adds_iff ht]
  refine ⟨fun hf => hright hf.1, fun hno => ⟨?_, ?_⟩⟩
  · rcases find_spec ht with ⟨e, _, hf, _⟩ | ⟨hf, _⟩
    · exact absurd (meets_of_find ht hf) hno
    · exact hf
  · exact hsp.fresh hs ht hv hno

instance : Decidable (m.Meets r) := inferInstanceAs (Decidable (∃ e ∈ m.tree, _))

instance {l : List (AddrRange × V)} : Decidable (Testable r l) :=
  decidable_of_iff (∀ e ∈ l, ∃ b ∈ [true, false], e.1.intersects r = .ok b) (by simp [Testable])

instance : Decidable (m.SafeRange r) := decidable_of_iff' _ (safeRange_iff m r)

instance (op : Op V) : Decidable (op.Allowed m) := by
  cases op <;> unfold Op.Allowed <;> infer_instance

instance (m : AddrRangeMap V) (op : Op V) : Decidable (op.Safe m) := by
  cases op <;> unfold Op.Safe <;> infer_instance

def move (m : AddrRangeMap V) (op : Op V) : Option (AddrRangeMap V) :=
  if op.Allowed m then (op.apply m).toOption else none

theorem step_of_move (m : AddrRangeMap V) (op : Op V) (m' : AddrRangeMap V)
    (h : move m op = some m') : (machine V).step m op m' := by
  unfold move at h
  split_ifs at h with hallowed
  refine ⟨hallowed, ?_⟩
  cases hop : op.apply m with
  | error e => simp [hop, Except.toOption] at h
  | ok n => simpa [hop, Except.toOption] using h

/-- A stripe of `[64, 127]`, cut in two by bit 4. -/
def stripe (intlvMatch : Nat) : AddrRange :=
  { start := 64, «end» := 127, intlvHighBit := 4, xorHighBit := 0, intlvBits := 1, intlvMatch }

/-- Two plain ranges and two stripes of a chunk, each inserted before the one behind
it: `[15, 35]` intersects both plain ranges and is not added, `[21, 29]` fits between
them and is. -/
theorem safe_run_disjoint_chunk : ∃ m : AddrRangeMap Nat,
    ((machine Nat).restrict Op.Safe).Reachable m ∧
    m.tree.map Prod.fst = [RangeIn 10 20, RangeIn 30 40, stripe 0, stripe 1] ∧ m.Disjoint ∧
    m.find (RangeSize 80 1) = .ok (some (stripe 1, 0)) ∧
    ¬m.Adds (RangeIn 15 35) 4 ∧ m.Adds (RangeIn 21 29) 4 := by
  obtain ⟨m, hm, htree, hfind, ht, hs, hmeets, ht', hs', hfree⟩ := Machine.exists_run
    (Machine.restrict_step step_of_move Op.Safe) (.start (s := empty) rfl)
    [.insert (stripe 1) 0, .insert (stripe 0) 1, .insert (RangeIn 30 40) 2,
      .insert (RangeIn 10 20) 3]
    (P := fun m => m.tree.map Prod.fst = [RangeIn 10 20, RangeIn 30 40, stripe 0, stripe 1] ∧
      m.find (RangeSize 80 1) = .ok (some (stripe 1, 0)) ∧
      Testable (RangeIn 15 35) m.tree ∧ m.SafeRange (RangeIn 15 35) ∧ m.Meets (RangeIn 15 35) ∧
      Testable (RangeIn 21 29) m.tree ∧ m.SafeRange (RangeIn 21 29) ∧ ¬m.Meets (RangeIn 21 29))
    (by decide)
  obtain ⟨hdis, hright⟩ := safe_run_disjoint hm
  refine ⟨m, hm, htree, hdis, hfind, fun hadd => ?_, ?_⟩
  · exact (hright _ 4 rfl ht hs).1.mp hadd hmeets
  · exact (hright _ 4 rfl ht' hs').1.mpr hfree

/-- With `[10, 20]` and `[30, 40]` stored, `[25, 35]` is inserted: only `[10, 20]`
is looked at, and the intersection with `[30, 40]` goes unnoticed. -/
theorem overlapping_range_inserted : ∃ m m' : AddrRangeMap Nat, (machine Nat).Reachable m ∧
    m.tree = [(RangeIn 10 20, 0), (RangeIn 30 40, 1)] ∧ Testable (RangeIn 25 35) m.tree ∧
    m.Meets (RangeIn 25 35) ∧ m.find (RangeIn 25 35) = .ok none ∧
    m.insert (RangeIn 25 35) 2 = .ok m' ∧ (machine Nat).Reachable m' ∧ ¬m'.Disjoint := by
  obtain ⟨m, m', hm, hstep, htree, hmeets, hfind, htree'⟩ := Machine.exists_run_next
    (step_of_move (V := Nat)) (.start (s := empty) rfl)
    [.insert (RangeIn 10 20) 0, .insert (RangeIn 30 40) 1] (a := .insert (RangeIn 25 35) 2)
    (P := fun m m' => m.tree = [(RangeIn 10 20, 0), (RangeIn 30 40, 1)] ∧
      m.Meets (RangeIn 25 35) ∧ m.find (RangeIn 25 35) = .ok none ∧
      m'.tree = [(RangeIn 10 20, 0), (RangeIn 25 35, 2), (RangeIn 30 40, 1)]) (by decide)
  refine ⟨m, m', hm, htree, hstep.1.2, hmeets, hfind, hstep.2, hm.next hstep, fun hd => ?_⟩
  exact hd (RangeIn 30 40, 1) (by rw [htree']; decide) (RangeIn 25 35, 2) (by rw [htree']; decide)
    (by decide) rfl

end AddrRangeMap

end Gem5.Base
