import Gem5.Ruby.Topology

namespace Gem5.Ruby

open Lib Lib.SortedMap List Scan

section Relax

variable {link : Nat → Nat → Int → Prop} {W : Matrix} {n : Nat}

/-- The loop over `k` finds the least way through a third switch. -/
theorem foldl_turn (hsum : ∀ k < n, plus (d i k) (d k j) = d i k + d k j) (ks : List Nat)
    (hks : ∀ k ∈ ks, k < n) (hs : s.minimum = d i j ∨
      ∃ k < n, s.intermediateSwitch = some k ∧ s.minimum = d i k + d k j) :
    (ks.foldl (turn d i j) s).minimum ≤ s.minimum ∧
      (∀ k ∈ ks, (ks.foldl (turn d i j) s).minimum ≤ d i k + d k j) ∧
      ((ks.foldl (turn d i j) s).minimum = d i j ∨
        ∃ k < n, (ks.foldl (turn d i j) s).intermediateSwitch = some k ∧
          (ks.foldl (turn d i j) s).minimum = d i k + d k j) := by
  induction ks generalizing s with
  | nil => exact ⟨Int.le_rfl, nofun, hs⟩
  | cons k ks ih =>
    have hk := hks k mem_cons_self
    have hturn : (s.turn d i j k).minimum = min s.minimum (d i k + d k j) := by
      rw [← hsum k hk]
      unfold turn
      dsimp only
      split <;> rfl
    have hs' : (s.turn d i j k).minimum = d i j ∨ ∃ k' < n,
        (s.turn d i j k).intermediateSwitch = some k' ∧
          (s.turn d i j k).minimum = d i k' + d k' j := by
      rw [hturn]
      unfold turn
      dsimp only
      rw [hsum k hk]
      split_ifs with heq
      · exact .inr ⟨k, hk, rfl, by omega⟩
      · have heq : min s.minimum (d i k + d k j) = s.minimum := (not_not.mp heq).symm
        rw [heq]
        exact hs
    obtain ⟨hle, hall, hend⟩ := ih (fun k' hk' => hks k' (.tail _ hk')) hs'
    rw [foldl_cons]
    refine ⟨hle.trans (hturn ▸ min_le_left _ _), fun k' hk' => ?_, hend⟩
    cases mem_cons.mp hk' with
    | inl heq =>
      subst heq
      exact hle.trans (hturn ▸ min_le_right _ _)
    | inr hk' => exact hall k' hk'

/-- What relaxing one pair does to the distances. -/
def Relaxed (n i j : Nat) (d d' : Matrix) : Prop :=
  ∃ m, d' = d.set i j m ∧ m ≤ d i j ∧ (∀ k < n, m ≤ d i k + d k j) ∧
    (m = d i j ∨ ∃ k < n, m = d i k + d k j)

theorem Matrix.set_self (m : Matrix) (i j : Nat) : m.set i j (m i j) = m := by
  funext a b
  unfold Matrix.set
  split_ifs with h
  · rw [h.1, h.2]
  · rfl

theorem relaxPair_spec (p : Paths) (change : Bool) (i j : Nat)
    (hsum : ∀ k < n, plus (p.dist i k) (p.dist k j) = p.dist i k + p.dist k j) :
    ∃ p' change', relaxPair n (p, change) (i, j) = some (p', change') ∧
      Relaxed n i j p.dist p'.dist ∧
      ((change' = change ∧ p'.dist i j = p.dist i j) ∨
        (change' = true ∧ p'.dist i j < p.dist i j)) := by
  obtain ⟨hle, hall, hend⟩ := foldl_turn hsum (s := ⟨p.dist i j, none, p.interSwitches⟩)
    (List.range n) (fun k hk => mem_range.mp hk) (.inl rfl)
  have hall : ∀ k < n, _ := fun k hk => hall k (mem_range.mpr hk)
  unfold relaxPair
  dsimp only at hle hall hend ⊢
  split_ifs with hne
  · rcases hend with heq | hend
    · exact absurd heq.symm hne
    · obtain ⟨k, hk, hswitch, hmin⟩ := hend
      rw [hswitch]
      refine ⟨_, true, rfl, ⟨_, rfl, hle, hall, .inr ⟨k, hk, hmin⟩⟩, .inr ⟨rfl, ?_⟩⟩
      simp only [Matrix.set, and_self, if_true]
      omega
  · have hne := not_not.mp hne
    refine ⟨_, change, rfl, ⟨p.dist i j, (Matrix.set_self _ _ _).symm, Int.le_rfl, ?_, .inl rfl⟩,
      .inl ⟨rfl, rfl⟩⟩
    intro k hk
    have := hall k hk
    omega

/-- What the distances are at any time: those below the sentinel are weights of walks. -/
structure Sound (link : Nat → Nat → Int → Prop) (W : Matrix) (n : Nat) (d : Matrix) : Prop where
  nonneg : ∀ i j, i < n → j < n → 0 ≤ d i j
  small : ∀ i j, i < n → j < n → d i j < 2 ^ 30
  walk : ∀ i j, i < n → j < n → INFINITE_LATENCY ≤ d i j ∨ Walk link i j (d i j)
  le : ∀ i j, i < n → j < n → d i j ≤ W i j
  pos : ∀ i j, i < n → j < n → i ≠ j ∨ 0 < W i i → 0 < d i j

theorem Sound.plus_eq (h : Sound link W n d) (hi : i < n) (hj : j < n) (k : Nat) (hk : k < n) :
    plus (d i k) (d k j) = d i k + d k j :=
  Gem5.Ruby.plus_eq ⟨h.nonneg i k hi hk, h.small i k hi hk⟩ ⟨h.nonneg k j hk hj, h.small k j hk hj⟩

theorem Sound.relaxed (h : Sound link W n d) (hi : i < n) (hj : j < n)
    (hr : Relaxed n i j d d') : Sound link W n d' := by
  obtain ⟨m, hd', hle, _, hm⟩ := hr
  have hnonneg : 0 ≤ m := by
    rcases hm with hm | hm
    · exact hm ▸ h.nonneg i j hi hj
    · obtain ⟨k, hk, hm⟩ := hm
      have := h.nonneg i k hi hk
      have := h.nonneg k j hk hj
      omega
  have hwalk : INFINITE_LATENCY ≤ m ∨ Walk link i j m := by
    rcases hm with hm | hm
    · exact hm ▸ h.walk i j hi hj
    · obtain ⟨k, hk, hm⟩ := hm
      have := h.nonneg i k hi hk
      have := h.nonneg k j hk hj
      rcases h.walk i k hi hk with hbig | hik
      · exact .inl (by omega)
      · rcases h.walk k j hk hj with hbig | hkj
        · exact .inl (by omega)
        · exact .inr (hm ▸ hik.append hkj)
  have hpos : i ≠ j ∨ 0 < W i i → 0 < m := by
    intro hij
    have hold := h.pos i j hi hj hij
    rcases hm with hm | hm
    · omega
    · obtain ⟨k, hk, hm⟩ := hm
      obtain rfl | hik := eq_or_ne i k
      · have := h.nonneg i i hi hi
        omega
      · have := h.pos i k hi hk (.inl hik)
        have := h.nonneg k j hk hj
        omega
  have hcases : ∀ a b, (a = i ∧ b = j ∧ d' a b = m) ∨ d' a b = d a b := by
    intro a b
    rw [hd', Matrix.set]
    split_ifs with hab
    · exact .inl ⟨hab.1, hab.2, rfl⟩
    · exact .inr rfl
  refine ⟨fun a b ha hb => ?_, fun a b ha hb => ?_, fun a b ha hb => ?_, fun a b ha hb => ?_,
    fun a b ha hb hab => ?_⟩
  · obtain ⟨_, _, hval⟩ | hval := hcases a b
    · rwa [hval]
    · exact hval ▸ h.nonneg a b ha hb
  · have hold := h.small a b ha hb
    obtain ⟨rfl, rfl, hval⟩ | hval := hcases a b <;> omega
  · obtain ⟨rfl, rfl, hval⟩ | hval := hcases a b
    · rwa [hval]
    · exact hval ▸ h.walk a b ha hb
  · obtain ⟨rfl, rfl, hval⟩ | hval := hcases a b
    · exact hval ▸ hle.trans (h.le a b ha hb)
    · exact hval ▸ h.le a b ha hb
  · obtain ⟨rfl, rfl, hval⟩ | hval := hcases a b
    · exact hval ▸ hpos hab
    · exact hval ▸ h.pos a b ha hb hab

theorem Relaxed.le (h : Relaxed n i j d d') (a b : Nat) : d' a b ≤ d a b := by
  obtain ⟨m, rfl, hle, _⟩ := h
  unfold Matrix.set
  split_ifs with hab
  · rw [hab.1, hab.2]
    exact hle
  · exact Int.le_rfl

/-- A pair that keeps its distance keeps the whole matrix, and has the triangle
inequality. -/
theorem Relaxed.unchanged (h : Relaxed n i j d d')
    (heq : d' i j = d i j) : d' = d ∧ ∀ k < n, d i j ≤ d i k + d k j := by
  obtain ⟨m, rfl, _, hall, _⟩ := h
  have hm : m = d i j := by simpa [Matrix.set] using heq
  subst hm
  exact ⟨Matrix.set_self d i j, hall⟩

theorem foldlM_relaxPair (ps : List (Nat × Nat)) (hps : ∀ q ∈ ps, q.1 < n ∧ q.2 < n)
    (change : Bool) (h : Sound link W n p.dist) :
    ∃ p' change', ps.foldlM (relaxPair n) (p, change) = some (p', change') ∧
      Sound link W n p'.dist ∧ (∀ a b, p'.dist a b ≤ p.dist a b) ∧
      ((change' = change ∧ p'.dist = p.dist ∧
          ∀ q ∈ ps, ∀ k < n, p.dist q.1 q.2 ≤ p.dist q.1 k + p.dist k q.2) ∨
        (change' = true ∧ ∃ q ∈ ps, p'.dist q.1 q.2 < p.dist q.1 q.2)) := by
  induction ps generalizing p change with
  | nil =>
    exact ⟨p, change, rfl, h, fun a b => Int.le_rfl, .inl ⟨rfl, rfl, nofun⟩⟩
  | cons q ps ih =>
    obtain ⟨i, j⟩ := q
    obtain ⟨hi, hj⟩ := hps (i, j) mem_cons_self
    obtain ⟨p₁, change₁, hrun₁, hrel, hch₁⟩ := relaxPair_spec p change i j (h.plus_eq hi hj)
    obtain ⟨p', change', hrun, hsound, hle, hch⟩ :=
      ih (fun q hq => hps q (.tail _ hq)) change₁ (h.relaxed hi hj hrel)
    have hle' : ∀ a b, p'.dist a b ≤ p.dist a b := fun a b => (hle a b).trans (hrel.le a b)
    refine ⟨p', change', ?_, hsound, hle', ?_⟩
    · rw [foldlM_cons, hrun₁]
      exact hrun
    rcases hch₁ with hsame | hless
    · obtain ⟨hc₁, heq⟩ := hsame
      obtain ⟨hd, htri⟩ := hrel.unchanged heq
      rw [hc₁, hd] at hch
      rcases hch with hch | hch
      · refine .inl ⟨hch.1, hch.2.1, fun q hq => ?_⟩
        rcases mem_cons.mp hq with rfl | hq
        · exact htri
        · exact hch.2.2 q hq
      · obtain ⟨hc, q, hq, hlt⟩ := hch
        exact .inr ⟨hc, q, .tail _ hq, hlt⟩
    · obtain ⟨hc₁, hlt⟩ := hless
      have hc' : change' = true := by
        rcases hch with hch | hch
        · exact hch.1.trans hc₁
        · exact hch.1
      have := hle i j
      exact .inr ⟨hc', (i, j), mem_cons_self, by dsimp only; omega⟩

theorem mem_pairs : q ∈ pairs n ↔ q.1 < n ∧ q.2 < n := by
  obtain ⟨i, j⟩ := q
  simp [pairs]

/-- The sum of all distances: it goes down while something changes. -/
def total (n : Nat) (d : Matrix) : Nat := ∑ i ∈ Finset.range n, ∑ j ∈ Finset.range n, (d i j).toNat

theorem total_lt (hnonneg : ∀ i j, i < n → j < n → 0 ≤ d' i j)
    (hle : ∀ i j, d' i j ≤ d i j) (hi : i < n) (hj : j < n) (hlt : d' i j < d i j) :
    total n d' < total n d := by
  have hrow : ∀ a, ∑ b ∈ Finset.range n, (d' a b).toNat ≤ ∑ b ∈ Finset.range n, (d a b).toNat :=
    fun a => Finset.sum_le_sum (fun b _ => Int.toNat_le_toNat (hle a b))
  refine Finset.sum_lt_sum (fun a _ => hrow a) ⟨i, Finset.mem_range.mpr hi, ?_⟩
  refine Finset.sum_lt_sum (fun b _ => Int.toNat_le_toNat (hle i b))
    ⟨j, Finset.mem_range.mpr hj, ?_⟩
  have := hnonneg i j hi hj
  omega

/-- The loop ends, with distances that satisfy the triangle inequality. -/
theorem extendShortestPath_spec (h : Sound link W n p.dist) (hfuel : total n p.dist < fuel) :
    ∃ p', extendShortestPath n fuel p = some p' ∧ Sound link W n p'.dist ∧
      ∀ i j k, i < n → j < n → k < n → p'.dist i j ≤ p'.dist i k + p'.dist k j := by
  induction fuel generalizing p with
  | zero => omega
  | succ fuel ih =>
    obtain ⟨p₁, change, hrun, hsound, hle, hch⟩ :=
      foldlM_relaxPair (pairs n) (fun q hq => mem_pairs.mp hq) false h
    rw [extendShortestPath, hrun]
    simp only [Option.bind_some]
    rcases hch with hch | hch
    · obtain ⟨hc, hd, htri⟩ := hch
      rw [hc]
      refine ⟨p₁, rfl, hsound, fun i j k hi hj hk => ?_⟩
      rw [hd]
      exact htri (i, j) (mem_pairs.mpr ⟨hi, hj⟩) k hk
    · obtain ⟨hc, q, hq, hlt⟩ := hch
      rw [hc, if_pos rfl]
      obtain ⟨hi, hj⟩ := mem_pairs.mp hq
      have := total_lt hsound.nonneg hle hi hj hlt
      exact ih hsound (by omega)

theorem Sound.extendShortestPath (h : Sound link W n p.dist)
    (hrun : extendShortestPath n fuel p = some p') : Sound link W n p'.dist := by
  induction fuel generalizing p with
  | zero => cases hrun
  | succ fuel ih =>
    obtain ⟨p₁, change, hpass, hsound, _⟩ :=
      foldlM_relaxPair (pairs n) (fun q hq => mem_pairs.mp hq) false h
    rw [Gem5.Ruby.extendShortestPath, hpass] at hrun
    simp only [Option.bind_some] at hrun
    split at hrun
    · exact ih hsound hrun
    · cases hrun
      exact hsound

end Relax

end Gem5.Ruby
