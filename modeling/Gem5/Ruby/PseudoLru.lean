import Gem5.Ruby.CacheMemory

namespace Gem5.Ruby

open Finset Function Nat
open private Nat.nextPowerOfTwo.go in Nat.nextPowerOfTwo

/-! The trees of the pseudo-LRU policy. -/

/-- The node on the path to a way from where `m` of its bits are left to follow. -/
def treeNode (levels way m : Nat) : Nat := 2 ^ (levels - m) + way / 2 ^ m - 1

/-- The levels at which the tree leads away from a way. -/
def ledAway (levels way : Nat) (tree : Nat → Bool) : Finset Nat :=
  {i ∈ range levels | tree (treeNode levels way (i + 1)) ≠ way.testBit i}

theorem treeNode_add_one : treeNode n w m + 1 = 2 ^ (n - m) + w / 2 ^ m :=
  Nat.sub_add_cancel (Nat.one_le_two_pow.trans (Nat.le_add_right _ _))

theorem treeNode_inj (hw : w < 2 ^ n) (hv : v < 2 ^ n) (hi : i ≤ n) (hj : j ≤ n) :
    treeNode n w i = treeNode n v j ↔ i = j ∧ w / 2 ^ i = v / 2 ^ i := by
  refine ⟨fun h => ?_, by rintro ⟨rfl, h⟩; simp [treeNode, h]⟩
  have hlog : ∀ w < 2 ^ n, ∀ i ≤ n, (2 ^ (n - i) + w / 2 ^ i).log2 = n - i := by
    intro w hw i hi
    have hq : w / 2 ^ i < 2 ^ (n - i) := by
      rwa [Nat.div_lt_iff_lt_mul (Nat.two_pow_pos _), ← Nat.pow_add, Nat.sub_add_cancel hi]
    generalize w / 2 ^ i = q at hq
    exact (log2_eq_iff (by omega)).mpr ⟨by omega, by rw [pow_succ]; omega⟩
  have hsum := congrArg (· + 1) h
  simp only [treeNode_add_one] at hsum
  have hij := congrArg log2 hsum
  rw [hlog w hw i hi, hlog v hv j hj] at hij
  obtain rfl : i = j := by omega
  exact ⟨rfl, add_left_cancel hsum⟩

theorem treeNode_step (hm : m < n) : treeNode n w m =
    if w.testBit m then treeNode n w (m + 1) * 2 + 2 else treeNode n w (m + 1) * 2 + 1 := by
  have hpow : 2 ^ (n - m) = 2 ^ (n - (m + 1)) * 2 := by
    rw [← pow_succ]
    congr 1
    omega
  have hdiv : w / 2 ^ (m + 1) = w / 2 ^ m / 2 := by rw [Nat.pow_succ, Nat.div_div_eq_div_mul]
  have hhere : treeNode n w m + 1 = _ := treeNode_add_one
  have hup : treeNode n w (m + 1) + 1 = _ := treeNode_add_one
  rw [hpow] at hhere
  rw [hdiv] at hup
  simp only [testBit_eq_decide_div_mod_eq, decide_eq_true_eq]
  generalize w / 2 ^ m = q at *
  split <;> omega

theorem treeNode_child (hb : b < 2) : treeNode (k + 1) (2 * q + b) (m + 1) = treeNode k q m := by
  have hdiv : (2 * q + b) / 2 ^ (m + 1) = q / 2 ^ m := by
    rw [Nat.pow_succ', ← Nat.div_div_eq_div_mul, show (2 * q + b) / 2 = q by omega]
  rw [treeNode, treeNode, hdiv, Nat.add_sub_add_right]

namespace Replacement

variable {cfg : CacheConfig} {t : Nat → Bool}

/-- A touch sets the bits on the path to the way, and no others. -/
theorem touchTree_node (hv : v < 2 ^ cfg.numLevels) (hw : w < 2 ^ cfg.numLevels)
    (hi : i < cfg.numLevels) :
    touchTree cfg v t (treeNode cfg.numLevels w (i + 1)) =
      if w / 2 ^ (i + 1) = v / 2 ^ (i + 1) then v.testBit i
      else t (treeNode cfg.numLevels w (i + 1)) := by
  unfold touchTree
  generalize cfg.numLevels = n at *
  suffices hfold : ∀ m ≤ n, ∀ t, ((List.range m).reverse.foldl
      (fun (p : (Nat → Bool) × Nat) i => (update p.1 p.2 (v.testBit i),
        if v.testBit i then p.2 * 2 + 2 else p.2 * 2 + 1)) (t, treeNode n v m)).1
          (treeNode n w (i + 1)) =
        if i < m ∧ w / 2 ^ (i + 1) = v / 2 ^ (i + 1) then v.testBit i
        else t (treeNode n w (i + 1)) by
    simpa [treeNode, div_eq_of_lt hv, hi] using hfold n le_rfl t
  intro m
  induction m with
  | zero => simp
  | succ m ih =>
    intro hm t
    rw [List.range_succ, List.reverse_append, List.reverse_singleton, List.singleton_append,
      List.foldl_cons, ← treeNode_step hm, ih (by omega)]
    obtain rfl | him := eq_or_ne i m
    · simp [update_apply, treeNode_inj hw hv hi hi]
    · simp [treeNode_inj hw hv (succ_le_of_lt hi) hm, him, show i < m + 1 ↔ i < m by omega]

/-- The victim is a leaf that the tree leads away from at every level, or the last way. -/
theorem treeVictim_spec (heff : cfg.effectiveAssoc = 2 ^ cfg.numLevels) :
    ∃ v < 2 ^ cfg.numLevels, treeVictim cfg t = min v (cfg.assoc - 1) ∧
      ∀ i < cfg.numLevels, t (treeNode cfg.numLevels v (i + 1)) ≠ v.testBit i := by
  unfold treeVictim
  rw [heff]
  generalize cfg.numLevels = n
  suffices hfold : ∀ k ≤ n, ∃ q < 2 ^ k, (List.range k).foldl (fun (p : Nat × Nat) i =>
      if t p.2 then (p.1, p.2 * 2 + 1) else (p.1 + 2 ^ n >>> (i + 1), p.2 * 2 + 2)) (0, 0) =
        (q * 2 ^ (n - k), treeNode k q 0) ∧
      ∀ i < k, t (treeNode k q (i + 1)) ≠ q.testBit i by
    obtain ⟨v, hv, hfold, hbits⟩ := hfold n le_rfl
    exact ⟨v, hv, by simp [hfold], hbits⟩
  intro k
  induction k with
  | zero => exact fun _ => ⟨0, by simp, by simp [treeNode], by simp⟩
  | succ k ih =>
    intro hk
    obtain ⟨q, hq, hfold, hbits⟩ := ih (by omega)
    obtain ⟨b, hb, hbit⟩ : ∃ b < 2, t (treeNode k q 0) ≠ decide (b = 1) := by
      cases htree : t (treeNode k q 0)
      exacts [⟨1, by simp⟩, ⟨0, by simp⟩]
    refine ⟨2 * q + b, by rw [pow_succ]; omega, ?_, fun i hi => ?_⟩
    · have hpow : 2 ^ (n - k) = 2 * 2 ^ (n - (k + 1)) := by
        rw [← pow_succ']
        congr 1
        omega
      have hshift : 2 ^ n >>> (k + 1) = 2 ^ (n - (k + 1)) := by
        rw [Nat.shiftRight_eq_div_pow, Nat.pow_div hk Nat.two_pos]
      rw [List.range_succ, List.foldl_append, hfold, treeNode_step k.succ_pos, treeNode_child hb,
        hpow, ← hshift]
      obtain rfl | rfl : b = 0 ∨ b = 1 := by omega
      · simp at hbit
        simp [hbit]
        ring
      · simp at hbit
        simp [hbit]
        ring
    · rw [treeNode_child hb]
      cases i with
      | zero => simpa [testBit_zero, add_mod, mod_eq_of_lt hb] using hbit
      | succ i =>
        rw [testBit_succ, show (2 * q + b) / 2 = q by omega]
        exact hbits i (by omega)

/-- A touch leads away from another way at one level at most. -/
theorem card_ledAway_touchTree (hv : v < 2 ^ cfg.numLevels) (hw : w < 2 ^ cfg.numLevels) :
    (ledAway cfg.numLevels w (touchTree cfg v t)).card ≤ (ledAway cfg.numLevels w t).card + 1 := by
  let fork := {i ∈ range cfg.numLevels |
    w / 2 ^ (i + 1) = v / 2 ^ (i + 1) ∧ v.testBit i ≠ w.testBit i}
  have hsub : ledAway cfg.numLevels w (touchTree cfg v t) ⊆ ledAway cfg.numLevels w t ∪ fork := by
    intro i hi
    simp only [ledAway, fork, mem_union, mem_filter] at hi ⊢
    rw [touchTree_node hv hw (mem_range.mp hi.1)] at hi
    split at hi
    · exact .inr ⟨hi.1, ‹_›, hi.2⟩
    · exact .inl hi
  have hfork : fork.card ≤ 1 := by
    refine card_le_one.mpr fun i hi j hj => ?_
    simp only [fork, mem_filter] at hi hj
    have habove : ∀ i j, i < j → w / 2 ^ (i + 1) = v / 2 ^ (i + 1) → v.testBit j = w.testBit j := by
      intro i j hij h
      have := congrArg (·.testBit (j - (i + 1))) h
      simpa [Nat.testBit_div_two_pow, Nat.sub_add_cancel hij] using this.symm
    rcases lt_trichotomy i j with hij | hij | hij
    · exact absurd (habove i j hij hi.2.1) hj.2.2
    · exact hij
    · exact absurd (habove j i hij hj.2.1) hi.2.2
  have := card_le_card hsub
  have := card_union_le (ledAway cfg.numLevels w t) fork
  omega

theorem nextPowerOfTwo_bounds (h : 2 ≤ n) : n ≤ n.nextPowerOfTwo ∧ n.nextPowerOfTwo < 2 * n := by
  unfold nextPowerOfTwo
  suffices hgo : ∀ p (hp : p > 0), p < 2 * n →
      n ≤ Nat.nextPowerOfTwo.go n p hp ∧ Nat.nextPowerOfTwo.go n p hp < 2 * n from
    hgo 1 _ (by omega)
  intro p hp hlt
  induction hk : n - p using Nat.strong_induction_on generalizing p with
  | _ k ih =>
    unfold Nat.nextPowerOfTwo.go
    split
    · exact ih _ (by omega) _ _ (by omega) rfl
    · omega

theorem effectiveAssoc_eq (cfg : CacheConfig) : cfg.effectiveAssoc = 2 ^ cfg.numLevels := by
  obtain ⟨k, hk⟩ := isPowerOfTwo_nextPowerOfTwo cfg.assoc
  rw [CacheConfig.numLevels, CacheConfig.effectiveAssoc, hk, log2_two_pow]

theorem assoc_bounds (h : 2 ≤ cfg.assoc) :
    cfg.assoc ≤ 2 ^ cfg.numLevels ∧ 2 ^ cfg.numLevels < 2 * cfg.assoc := by
  rw [← effectiveAssoc_eq]
  exact nextPowerOfTwo_bounds h

/-- The calls on a set, newest first, with the times they are made. -/
def touchAll (cfg : CacheConfig) (set : Nat) (calls : List (Nat × Nat)) (s : Replacement) :
    Replacement :=
  calls.foldr (fun call s => s.touch cfg set call.1 call.2) s

section

variable (hpolicy : cfg.policy = .pseudoLru)
include hpolicy

theorem trees_touch (s : Replacement) (set : Nat) (call : Nat × Nat) :
    (s.touch cfg set call.1 call.2).trees set = touchTree cfg call.1 (s.trees set) := by
  simp [touch, hpolicy]

theorem card_ledAway_touchAll (hw : w < 2 ^ cfg.numLevels) (s : Replacement) (set : Nat)
    (calls : List (Nat × Nat)) (hcalls : ∀ call ∈ calls, call.1 < 2 ^ cfg.numLevels) :
    (ledAway cfg.numLevels w ((touchAll cfg set calls s).trees set)).card ≤
      (ledAway cfg.numLevels w (s.trees set)).card + calls.length := by
  induction calls with
  | nil => rfl
  | cons call calls ih =>
    have hrest := ih (fun c hc => hcalls c (.tail _ hc))
    have htouch := card_ledAway_touchTree (t := (touchAll cfg set calls s).trees set)
      (hcalls call List.mem_cons_self) hw
    rw [← trees_touch hpolicy] at htouch
    exact htouch.trans (succ_le_succ hrest)

theorem getVictim_ne_last (hassoc : 2 ≤ cfg.assoc) (s : Replacement) (set : Nat)
    {call : Nat × Nat} (hcall : call.1 < cfg.assoc) :
    (s.touch cfg set call.1 call.2).getVictim cfg set ≠ call.1 := by
  obtain ⟨hle, hlt⟩ := assoc_bounds hassoc
  obtain ⟨v, hv, hvictim, hbits⟩ := treeVictim_spec (effectiveAssoc_eq cfg)
    (t := touchTree cfg call.1 (s.trees set))
  obtain ⟨n, hn⟩ : ∃ n, cfg.numLevels = n + 1 :=
    exists_eq_add_one_of_ne_zero fun h0 => by simp [h0] at hle; omega
  -- the root leads away from the half of the last way
  have hroot := hbits n (by omega)
  rw [touchTree_node (hcall.trans_le hle) hv (by omega), ← hn, div_eq_of_lt hv,
    div_eq_of_lt (hcall.trans_le hle), if_pos rfl] at hroot
  rw [hn] at hle hlt hv
  have hhalf : ∀ x, 2 ^ n ≤ x → x < 2 ^ (n + 1) → x.testBit n = true := fun x =>
    testBit_of_two_pow_le_and_two_pow_add_one_gt
  simp only [getVictim, hpolicy, trees_touch hpolicy, hvictim]
  intro heq
  by_cases hclamp : v ≤ cfg.assoc - 1
  · exact hroot (by rw [← heq, min_eq_left hclamp])
  · exact hroot (by rw [hhalf v (by omega) hv, hhalf _ (by omega) (by omega)])

end

/-- The victim is a way, but not the last one touched; and where the ways are a power of two, it is
none of the last ways touched, as many as the tree has levels. -/
theorem recent_ways_protected (cfg : CacheConfig) (hpolicy : cfg.policy = .pseudoLru)
    (hassoc : 2 ≤ cfg.assoc) (s : Replacement) (set : Nat) (newer older : List (Nat × Nat))
    (call : Nat × Nat) (hcalls : ∀ c ∈ newer ++ call :: older, c.1 < cfg.assoc) :
    s.getVictim cfg set < cfg.assoc ∧
      (touchAll cfg set (call :: older) s).getVictim cfg set ≠ call.1 ∧
      ∀ k, cfg.assoc = 2 ^ k → newer.length < k →
        (touchAll cfg set (newer ++ call :: older) s).getVictim cfg set ≠ call.1 := by
  have hcall := hcalls call (by simp)
  refine ⟨getVictim_lt cfg _ set, getVictim_ne_last hpolicy hassoc _ set hcall, fun k hk hlen => ?_⟩
  obtain ⟨hle, hlt⟩ := assoc_bounds hassoc
  have hlevels : cfg.numLevels = k := by
    rw [hk, ← Nat.pow_succ', Nat.pow_lt_pow_iff_right Nat.one_lt_two] at hlt
    rw [hk, Nat.pow_le_pow_iff_right Nat.one_lt_two] at hle
    omega
  have hpath : ledAway cfg.numLevels call.1
      ((touchAll cfg set (call :: older) s).trees set) = ∅ := by
    refine filter_eq_empty_iff.mpr fun i hi => ?_
    rw [show touchAll cfg set (call :: older) s = touch cfg _ set call.1 call.2 from rfl,
      trees_touch hpolicy, touchTree_node (hcall.trans_le hle) (hcall.trans_le hle)
        (mem_range.mp hi)]
    simp
  have hcard := card_ledAway_touchAll hpolicy (hcall.trans_le hle)
    (touchAll cfg set (call :: older) s) set newer fun c hc =>
      (hcalls c (by simp [hc])).trans_le hle
  have hsplit : touchAll cfg set (newer ++ call :: older) s =
      touchAll cfg set newer (touchAll cfg set (call :: older) s) := List.foldr_append
  rw [hpath, card_empty, ← hsplit] at hcard
  obtain ⟨v, hv, hvictim, hbits⟩ := treeVictim_spec (effectiveAssoc_eq cfg)
    (t := (touchAll cfg set (newer ++ call :: older) s).trees set)
  have hway : v ≤ cfg.assoc - 1 := by
    rw [hlevels, ← hk] at hv
    omega
  simp only [getVictim, hpolicy, hvictim, min_eq_left hway]
  rintro rfl
  rw [ledAway, filter_true_of_mem fun i hi => hbits i (mem_range.mp hi), card_range] at hcard
  omega

theorem four_ways : 0 < 4 := succ_pos _

def fourWays : CacheConfig where
  size := 8
  assoc := 4
  blockSize := 1
  startIndexBit := 0
  policy := .pseudoLru
  ways := four_ways
  manySets := by decide

theorem recent_ways_protected_four :
    (touchAll fourWays 0 [(1, 0), (3, 0)] {}).getVictim fourWays 0 ≠ 3 :=
  (recent_ways_protected fourWays rfl (by decide) {} 0 [(1, 0)] [] (3, 0) (by decide)).2.2 2 rfl
    (by decide)

end Replacement

end Gem5.Ruby
