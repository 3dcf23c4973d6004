import Gem5.Base.AddrRangeMap
import Gem5.Lib.Outcome

namespace Gem5.Base.AddrRangeMap

open List Lib

variable {V : Type} {m : AddrRangeMap V} {r : AddrRange} {before : List (AddrRange × V)}

/-- `intersects` against `r` returns for every entry of the list. -/
def Testable (r : AddrRange) (l : List (AddrRange × V)) : Prop :=
  ∀ e ∈ l, ∃ b, e.1.intersects r = .ok b

def search (r : AddrRange) : List (AddrRange × V) → Res (Option (AddrRange × V))
  | [] => return none
  | e :: l => do if ← e.1.intersects r then return some e else search r l

theorem search_spec (h : Testable r l) :
    (∃ e ∈ l, search r l = .ok (some e) ∧ e.1.intersects r = .ok true) ∨
      (search r l = .ok none ∧ ∀ e ∈ l, e.1.intersects r = .ok false) := by
  induction l with
  | nil => exact .inr ⟨rfl, by simp⟩
  | cons e l ih =>
    obtain ⟨b, hb⟩ := h e (by simp)
    cases b with
    | true =>
      exact .inl ⟨e, by simp, by simp [search, hb], hb⟩
    | false =>
      have hstep : search r (e :: l) = search r l := by
        simp [search, hb]
      rw [hstep]
      rcases ih (fun f hf => h f (by simp [hf])) with ⟨f, hf, hs, hi⟩ | ⟨hs, hn⟩
      · exact .inl ⟨f, by simp [hf], hs, hi⟩
      · refine .inr ⟨hs, fun f hf => ?_⟩
        rcases mem_cons.mp hf with rfl | hf
        · exact hb
        · exact hn f hf

/-- The entries that `walkBack` steps to. -/
def chunkBelow (orig : AddrRange) (i : AddrRange × V) : List (AddrRange × V) → List (AddrRange × V)
  | [] => []
  | j :: before => if i.1.mergesWith orig then j :: chunkBelow orig j before else []

theorem test_false (h : i.1.intersects r = .ok false) : test r i = .ok none := by
  simp [test, h]

theorem walkBack_eq (h : Testable r before) (hi : i.1.intersects r = .ok false) :
    walkBack r orig i before = search r (chunkBelow orig i before) := by
  induction before generalizing i with
  | nil => exact test_false hi
  | cons j before ih =>
    unfold walkBack chunkBelow
    cases hm : i.1.mergesWith orig with
    | false => exact test_false hi
    | true =>
      obtain ⟨b, hb⟩ := h j (by simp)
      cases b with
      | true => simp [search, hb]
      | false =>
        simp only [search, hb, ok_bind, if_true, Bool.false_eq_true, if_false]
        exact ih (fun e he => h e (by simp [he])) hb

/-- The entries that `find` looks at, in its order. -/
def examined (m : AddrRangeMap V) (r : AddrRange) : List (AddrRange × V) :=
  match (m.below r).reverse, m.above r with
  | [], [] => []
  | [], i :: _ => [i]
  | i :: before, _ => i :: if i.1.interleaved then chunkBelow i.1 i before else []

theorem below_append_above (m : AddrRangeMap V) (r : AddrRange) :
    m.below r ++ m.above r = m.tree := takeWhile_append_dropWhile

theorem Testable.of_subset (h : Testable r l) (hs : l' ⊆ l) :
    Testable r l' := fun e he => h e (hs he)

theorem below_subset (m : AddrRangeMap V) (r : AddrRange) : m.below r ⊆ m.tree := by
  rw [← below_append_above m r]
  exact subset_append_left _ _

theorem find_eq_search (h : Testable r m.tree) : m.find r = search r (m.examined r) := by
  unfold find examined
  cases hrev : (m.below r).reverse with
  | nil =>
    cases m.above r with
    | nil => rfl
    | cons i _ => simp [search, test]
  | cons i before =>
    have hsub : i :: before ⊆ m.tree := by
      rw [← hrev]
      exact fun e he => m.below_subset r (mem_reverse.mp he)
    obtain ⟨b, hb⟩ := h i (hsub (by simp))
    cases b with
    | true => simp [search, hb]
    | false =>
      simp only [search, hb, ok_bind, Bool.false_eq_true, if_false]
      split
      · exact walkBack_eq (h.of_subset (fun e he => hsub (by simp [he]))) hb
      · rfl

theorem mem_below (he : e ∈ m.tree) : e ∈ m.below r ↔ ¬r.key < e.1.key := by
  constructor
  · intro hb
    have hp := mem_takeWhile_imp hb
    rw [← AddrRange.lt_iff]
    simpa using hp
  intro hlt
  by_contra hb
  have ha : e ∈ m.above r :=
    (mem_append.mp (m.below_append_above r ▸ he)).resolve_left hb
  have hs := m.sorted
  rw [← m.below_append_above r] at hs
  have hs' := (pairwise_append.mp hs).2.1
  -- the first entry above `r` already comes after it
  cases hab : m.above r with
  | nil => simp [hab] at ha
  | cons f above =>
    have hf : r.key < f.1.key := by
      have hd := head?_dropWhile_not (fun e : AddrRange × V => !r.lt e.1) m.tree
      rw [show m.tree.dropWhile _ = m.above r from rfl, hab] at hd
      rw [← AddrRange.lt_iff]
      simpa using hd
    rw [hab] at ha hs'
    rcases mem_cons.mp ha with rfl | ha
    · exact hlt hf
    · exact hlt (hf.trans ((pairwise_cons.mp hs').1 e ha))

theorem mem_chunkBelow (hd : (i :: before).Pairwise (fun e f => f.1.key < e.1.key)) :
    s ∈ chunkBelow orig i before ↔
      s ∈ before ∧ ∀ t ∈ i :: before, s.1.key < t.1.key → t.1.mergesWith orig = true := by
  induction before generalizing i with
  | nil => simp [chunkBelow]
  | cons j before ih =>
    obtain ⟨hi, hd'⟩ := pairwise_cons.mp hd
    obtain ⟨hj, _⟩ := pairwise_cons.mp hd'
    unfold chunkBelow
    cases hm : i.1.mergesWith orig with
    | false =>
      simp only [Bool.false_eq_true, if_false, not_mem_nil, false_iff, not_and]
      intro hs hall
      simpa [hm] using hall i (by simp) (hi s hs)
    | true =>
      simp only [if_true, mem_cons, ih hd']
      constructor
      · rintro (rfl | ⟨hs, hall⟩)
        · refine ⟨.inl rfl, ?_⟩
          rintro t (rfl | rfl | ht) hlt
          · exact hm
          · exact absurd hlt (lt_irrefl _)
          · exact absurd hlt (hj t ht).not_gt
        · refine ⟨.inr hs, ?_⟩
          rintro t (rfl | ht) hlt
          · exact hm
          · exact hall t (by simpa using ht) hlt
      · rintro ⟨rfl | hs, hall⟩
        · exact .inl rfl
        · exact .inr ⟨hs, fun t ht hlt => hall t (.inr (by simpa using ht)) hlt⟩

/-- `find(r)` looks at `s`: the first entry if all come after `r`; else the last
one not after `r`, and if that is interleaved, those before it as long as only
ranges of its chunk lie between. -/
def Reached (m : AddrRangeMap V) (r : AddrRange) (s : AddrRange × V) : Prop :=
  s ∈ m.tree ∧ (((∀ t ∈ m.tree, r.key < t.1.key) ∧ ∀ t ∈ m.tree, s.1.key ≤ t.1.key) ∨
      ∃ p ∈ m.tree, ¬r.key < p.1.key ∧ (∀ t ∈ m.tree, ¬r.key < t.1.key → t.1.key ≤ p.1.key) ∧
        (s = p ∨ p.1.interleaved = true ∧ s.1.key < p.1.key ∧
          ∀ t ∈ m.tree, s.1.key < t.1.key → t.1.key ≤ p.1.key → t.1.mergesWith p.1 = true))

theorem key_inj (he : e ∈ m.tree) (hf : f ∈ m.tree) (h : e.1.key = f.1.key) : e = f := by
  have hn : (m.tree.map (fun e => e.1.key)).Nodup :=
    pairwise_map.mpr (m.sorted.imp (fun hlt => hlt.ne))
  exact inj_on_of_nodup_map hn he hf h

/-- The entry before `upper_bound(r)` is the last one not after `r`. -/
theorem below_last (hrev : (m.below r).reverse = p :: before) : p ∈ m.tree ∧ ¬r.key < p.1.key ∧
      ∀ t ∈ m.tree, ¬r.key < t.1.key → t.1.key ≤ p.1.key := by
  have hp : p ∈ m.below r := mem_reverse.mp (hrev ▸ .head _)
  have hdesc : (p :: before).Pairwise (fun e f => f.1.key < e.1.key) := by
    rw [← hrev, pairwise_reverse]
    exact m.sorted.sublist (takeWhile_sublist _)
  refine ⟨m.below_subset r hp, (mem_below (m.below_subset r hp)).mp hp, fun t ht hlt => ?_⟩
  have htm := mem_reverse.mpr ((mem_below ht).mpr hlt)
  rw [hrev] at htm
  rcases mem_cons.mp htm with rfl | ht'
  · exact le_rfl
  · exact ((pairwise_cons.mp hdesc).1 t ht').le

theorem mem_examined : s ∈ m.examined r ↔ m.Reached r s := by
  unfold examined Reached
  cases hrev : (m.below r).reverse with
  | nil =>
    have hbelow : ∀ t ∈ m.tree, r.key < t.1.key := by
      intro t ht
      by_contra hlt
      have hmem := mem_reverse.mpr ((mem_below ht).mpr hlt)
      rw [hrev] at hmem
      cases hmem
    have htree : m.above r = m.tree := by
      rw [← m.below_append_above r, reverse_eq_nil_iff.mp hrev, nil_append]
    cases hab : m.above r with
    | nil => simp [← htree, hab]
    | cons i above =>
      have hs := m.sorted
      rw [← htree, hab] at hs
      have hi : i ∈ m.tree := by rw [← htree, hab]; simp
      have hleast : ∀ t ∈ m.tree, i.1.key ≤ t.1.key := by
        intro t ht
        rw [← htree, hab] at ht
        rcases mem_cons.mp ht with rfl | ht
        · exact le_rfl
        · exact ((pairwise_cons.mp hs).1 t ht).le
      simp only [mem_singleton]
      constructor
      · rintro rfl
        exact ⟨hi, .inl ⟨hbelow, hleast⟩⟩
      · rintro ⟨hmem, ⟨_, hle⟩ | ⟨p, hp, hnp, _⟩⟩
        · exact key_inj hmem hi (le_antisymm (hle i hi) (hleast s hmem))
        · exact absurd (hbelow p hp) hnp
  | cons p before =>
    have hmem : ∀ t, t ∈ p :: before ↔ t ∈ m.tree ∧ ¬r.key < t.1.key := by
      intro t
      rw [← hrev, mem_reverse]
      exact ⟨fun h => ⟨m.below_subset r h, (mem_below (m.below_subset r h)).mp h⟩,
        fun h => (mem_below h.1).mpr h.2⟩
    have hdesc : (p :: before).Pairwise (fun e f => f.1.key < e.1.key) := by
      rw [← hrev, pairwise_reverse]
      exact m.sorted.sublist (takeWhile_sublist _)
    obtain ⟨hp, hnp, hlast⟩ := below_last hrev
    have hbelow : ∀ t ∈ m.tree, t.1.key ≤ p.1.key → t ∈ p :: before :=
      fun t ht hle => (hmem t).mpr ⟨ht, fun hlt => hnp (hlt.trans_le hle)⟩
    have hwalk : s ∈ chunkBelow p.1 p before ↔ s ∈ m.tree ∧ s.1.key < p.1.key ∧
        ∀ t ∈ m.tree, s.1.key < t.1.key → t.1.key ≤ p.1.key → t.1.mergesWith p.1 = true := by
      rw [mem_chunkBelow hdesc]
      constructor
      · rintro ⟨hs, hall⟩
        exact ⟨((hmem s).mp (by simp [hs])).1, (pairwise_cons.mp hdesc).1 s hs,
          fun t ht hlt hle => hall t (hbelow t ht hle) hlt⟩
      rintro ⟨hs, hlt, hall⟩
      refine ⟨?_, fun t ht hst => ?_⟩
      · rcases mem_cons.mp (hbelow s hs hlt.le) with rfl | hs'
        · exact absurd hlt (lt_irrefl _)
        · exact hs'
      · obtain ⟨ht', hnt⟩ := (hmem t).mp ht
        exact hall t ht' hst (hlast t ht' hnt)
    constructor
    · intro hs
      rcases mem_cons.mp hs with rfl | hs
      · exact ⟨hp, .inr ⟨s, hp, hnp, hlast, .inl rfl⟩⟩
      · cases hint : p.1.interleaved with
        | false => simp [hint] at hs
        | true =>
          obtain ⟨hs', hlt, hall⟩ := hwalk.mp (by simpa [hint] using hs)
          exact ⟨hs', .inr ⟨p, hp, hnp, hlast, .inr ⟨hint, hlt, hall⟩⟩⟩
    · rintro ⟨hs, ⟨hfirst, _⟩ | ⟨p', hp', hnp', hlast', hcase⟩⟩
      · exact absurd (hfirst p hp) hnp
      · obtain rfl := key_inj hp' hp (le_antisymm (hlast p' hp' hnp') (hlast' p hp hnp))
        rcases hcase with rfl | ⟨hint, hlt, hall⟩
        · simp
        · simp only [hint, if_true]
          exact .tail _ (hwalk.mpr ⟨hs, hlt, hall⟩)

/-- What `find` returns: an entry it reaches that intersects, or `end()` if none
of them does. -/
theorem find_spec (h : Testable r m.tree) :
    (∃ e, m.Reached r e ∧ m.find r = .ok (some e) ∧ e.1.intersects r = .ok true) ∨
      (m.find r = .ok none ∧ ∀ e, m.Reached r e → e.1.intersects r = .ok false) := by
  have ht : Testable r (m.examined r) := h.of_subset (fun e he => (mem_examined.mp he).1)
  rw [find_eq_search h]
  rcases search_spec ht with ⟨e, he, hs, hi⟩ | ⟨hs, hn⟩
  · exact .inl ⟨e, mem_examined.mp he, hs, hi⟩
  · exact .inr ⟨hs, fun e he => hn e (mem_examined.mpr he)⟩

end Gem5.Base.AddrRangeMap
