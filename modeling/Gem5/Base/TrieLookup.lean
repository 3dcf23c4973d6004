import Gem5.Base.TrieRemove

namespace Gem5.Base.Trie

open Lib List Trie.Tree

variable {w : Nat} {V : Type}

namespace Entry

/-- The stored prefix is one of the key's. -/
def Matches (e : Entry w V) (key : BitVec w) : Prop := key &&& prefixMask w e.width = e.key

instance (e : Entry w V) (key : BitVec w) : Decidable (e.Matches key) :=
  inferInstanceAs (Decidable (_ = _))

end Entry

section

variable (stored : List (Entry w V))
include stored

/-- The purpose of a trie: of the stored prefixes that match the key, the one
with the smallest width. -/
def shortest (key : BitVec w) : Option (Entry w V) :=
  (stored.filter (fun e => e.Matches key)).argmin Entry.width

/-- No prefix is stored twice. -/
def Unique : Prop :=
  ∀ e ∈ stored, ∀ f ∈ stored, e.width = f.width → e.key = f.key → e = f

/-- An answer that no stored prefix improves on. -/
def IsShortest (key : BitVec w) : Option (Entry w V) → Prop
  | none => ∀ e ∈ stored, ¬e.Matches key
  | some e => e ∈ stored ∧ e.Matches key ∧ ∀ f ∈ stored, f.Matches key → e.width ≤ f.width

theorem shortest_isShortest (key : BitVec w) : IsShortest stored key (shortest stored key) := by
  cases hs : shortest stored key with
  | none =>
    have hnil := argmin_eq_none.mp hs
    simpa [IsShortest] using hnil
  | some e =>
    have hmem := mem_filter.mp (argmin_mem hs)
    refine ⟨hmem.1, of_decide_eq_true hmem.2, fun f hf hm => ?_⟩
    exact le_of_mem_argmin (mem_filter.mpr ⟨hf, decide_eq_true hm⟩) hs

end

variable {key : BitVec w} {t : Tree w V} {h : Nodes w V} {par : Option Nat}

theorem IsShortest.eq (hu : Unique stored)
    (h : IsShortest stored key r) (h' : IsShortest stored key r') :
    r = r' := by
  cases r with
  | none =>
    cases r' with
    | none => rfl
    | some e => exact absurd h'.2.1 (h e h'.1)
  | some e =>
    cases r' with
    | none => exact absurd h.2.1 (h' e h.1)
    | some f =>
      have hw : e.width = f.width := le_antisymm (h.2.2 f h'.1 h'.2.1) (h'.2.2 e h.1 h.2.1)
      have hk : e.key = f.key := by
        rw [← h.2.1, ← h'.2.1, hw]
      rw [hu e h.1 f h'.1 hw hk]

theorem IsShortest.perm (hp : xs.Perm ys) (h : IsShortest xs key r) : IsShortest ys key r := by
  cases r with
  | none => exact fun e he => h e (hp.mem_iff.mpr he)
  | some e => exact ⟨hp.mem_iff.mp h.1, h.2.1, fun f hf => h.2.2 f (hp.mem_iff.mpr hf)⟩

theorem IsShortest.union {xs ys zs : List (Entry w V)}
    {r : Option (Entry w V)} (h : IsShortest xs key r) (hmem : ∀ e, e ∈ zs ↔ e ∈ xs ∨ e ∈ ys)
    (hno : ∀ e ∈ ys, ¬e.Matches key) : IsShortest zs key r := by
  have honly : ∀ e ∈ zs, e.Matches key → e ∈ xs := fun e he hm =>
    ((hmem e).mp he).resolve_right (fun hy => hno e hy hm)
  cases r with
  | none => exact fun e he hm => h e (honly e he hm) hm
  | some e =>
    exact ⟨(hmem e).mpr (Or.inl h.1), h.2.1, fun f hf hm => h.2.2 f (honly f hf hm) hm⟩

theorem Tree.Wf.entries_below (hw : t.Wf) {k : BitVec w} {n : Nat}
    (hi : t.info = some (k, n)) {e : Entry w V} (he : e ∈ t.entries) :
    n ≤ e.width ∧ Agree k e.key n ∧ e.width ≤ w ∧ e.key &&& prefixMask w e.width = e.key := by
  induction t generalizing k n with
  | nil => cases hi
  | node p kp np v l r ihl ihr =>
    obtain ⟨hloc, hl, hr⟩ := hw
    cases hi
    rw [mem_entries] at he
    have hkid : ∀ s : Tree w V, (∀ k n, s.info = some (k, n) → np < n ∧ Agree kp k np) →
        (∀ {k n}, s.info = some (k, n) → n ≤ e.width ∧ Agree k e.key n ∧ e.width ≤ w ∧
          e.key &&& prefixMask w e.width = e.key) → s ≠ .nil →
        np ≤ e.width ∧ Agree kp e.key np ∧ e.width ≤ w ∧
          e.key &&& prefixMask w e.width = e.key := by
      intro s hbelow hs hne
      cases s with
      | nil => exact absurd rfl hne
      | node q k' n' v' l' r' =>
        obtain ⟨hlt, ha⟩ := hbelow k' n' rfl
        obtain ⟨hle, ha', hrest⟩ := hs rfl
        exact ⟨by omega, ha.trans (ha'.mono (by omega)), hrest⟩
    rcases mem_cons.mp he with heq | he
    · cases heq
      exact ⟨le_rfl, fun _ _ => rfl, hloc.bound, hloc.masked⟩
    rcases mem_append.mp he with he | he
    · refine hkid l hloc.below₀ (fun hi' => ihl hl hi' (mem_entries.mpr he)) ?_
      rintro rfl
      cases he
    · refine hkid r hloc.below₁ (fun hi' => ihr hr hi' (mem_entries.mpr he)) ?_
      rintro rfl
      cases he

/-- A prefix of the key stored below a node: the node's prefix is one too. -/
theorem Tree.Wf.matches_of_entry (hw : t.Wf) {e : Entry w V} (he : e ∈ t.entries)
    (hm : e.Matches key) : t.Matches key := by
  cases t with
  | nil => cases he
  | node p k n v l r =>
    obtain ⟨hle, ha, hb, hk⟩ := hw.entries_below rfl he
    have hkey : Agree e.key key e.width := by
      rw [← and_prefixMask_eq_iff hb, hk]
      exact hm.symm
    exact ⟨k, n, rfl, ha.trans (hkey.mono hle)⟩

theorem Tree.Matches.exists_root (h : t.Matches key) : ∃ p, t.root = some p := by
  cases t with
  | nil =>
    obtain ⟨_, _, hi, _⟩ := h
    cases hi
  | node p k n v l r => exact ⟨p, rfl⟩

theorem kidMatches_spec (key : BitVec w) (hr : t.Rep h par) (hw : t.Wf) :
    ∃ b, kidMatches h t.root key = .ok b ∧ (b = true ↔ t.Matches key) := by
  cases t with
  | nil =>
    refine ⟨false, rfl, ?_⟩
    simp [Matches, info]
  | node p k n v l r =>
    obtain ⟨hloc, _, _⟩ := hw
    refine ⟨(cell k n v par l.root r.root).matches key, ?_, ?_⟩
    · rw [root_node, kidMatches, deref_of_get hr.1]
      rfl
    · rw [cell_matches hloc.bound hloc.masked]
      simp [Matches, info]

theorem Local.apart_matches {k : BitVec w} {n : Nat} {v : Option V} {l r : Tree w V}
    (hloc : Local k n v l.info r.info) (hl : l.Matches key) : ¬r.Matches key := by
  obtain ⟨k₀, n₀, hi₀, ha₀⟩ := hl
  rintro ⟨k₁, n₁, hi₁, ha₁⟩
  refine hloc.apart k₀ n₀ k₁ n₁ hi₀ hi₁ ?_
  rw [ha₀ n (hloc.below₀ k₀ n₀ hi₀).1, ha₁ n (hloc.below₁ k₁ n₁ hi₁).1]

/-- The loop of `lookupHandle` stops at the first value on the key's path. -/
theorem lookupFrom_spec
    {p fuel : Nat} (hr : t.Rep h par) (hw : t.Wf) (hm : t.Matches key) (hp : t.root = some p)
    (hfuel : t.nodes.length ≤ fuel) :
    ∃ r, lookupFrom h key fuel p = .ok (r.map Entry.handle) ∧ IsShortest t.entries key r := by
  induction t generalizing par p fuel with
  | nil => cases hp
  | node q k n v l r ihl ihr =>
    cases hp
    obtain ⟨hq, hrl, hrr⟩ := hr
    have hall := hw
    obtain ⟨hloc, hwl, hwr⟩ := hw
    simp only [nodes, length_cons, length_append] at hfuel
    obtain ⟨fuel, rfl⟩ : ∃ f, fuel = f + 1 := ⟨fuel - 1, by omega⟩
    rw [lookupFrom]
    simp only [deref_of_get hq, ok_bind]
    cases v with
    | some val =>
      obtain ⟨_, _, hi, ha⟩ := hm
      cases hi
      refine ⟨some ⟨q, k, n, val⟩, rfl, mem_entries.mpr mem_cons_self, ?_, ?_⟩
      · have := (and_prefixMask_eq_iff hloc.bound).mpr ha
        rw [hloc.masked] at this
        exact this.symm
      · exact fun f hf _ => (hall.entries_below rfl hf).1
    | none =>
      have hmem : ∀ e, e ∈ (node q k n none l r).entries ↔ e ∈ l.entries ∨ e ∈ r.entries := by
        intro e
        simp [mem_entries, nodes]
      obtain ⟨b₀, hb₀, hm₀⟩ := kidMatches_spec key hrl hwl
      obtain ⟨b₁, hb₁, hm₁⟩ := kidMatches_spec key hrr hwr
      have hno₀ : ¬l.Matches key → ∀ e ∈ l.entries, ¬e.Matches key :=
        fun hn e he hme => hn (hwl.matches_of_entry he hme)
      have hno₁ : ¬r.Matches key → ∀ e ∈ r.entries, ¬e.Matches key :=
        fun hn e he hme => hn (hwr.matches_of_entry he hme)
      simp only [cell, hb₀, hb₁, Option.isSome_none, Bool.false_eq_true, if_false, ok_bind]
      by_cases hl : l.Matches key
      · obtain ⟨q', hq'⟩ := hl.exists_root
        obtain ⟨res, hres, hshort⟩ := @ihl _ _ fuel hrl hwl hl hq' (by omega)
        refine ⟨res, ?_, hshort.union hmem (hno₁ (hloc.apart_matches hl))⟩
        simp only [hm₀.mpr hl, hq', if_true, Option.getD_some, hres]
      have hf₀ : b₀ = false := Bool.eq_false_iff.mpr (fun h => hl (hm₀.mp h))
      have hmem' : ∀ e, e ∈ (node q k n none l r).entries ↔ e ∈ r.entries ∨ e ∈ l.entries :=
        fun e => (hmem e).trans or_comm
      simp only [hf₀, Bool.false_eq_true, if_false]
      by_cases hr : r.Matches key
      · obtain ⟨q', hq'⟩ := hr.exists_root
        obtain ⟨res, hres, hshort⟩ := @ihr _ _ fuel hrr hwr hr hq' (by omega)
        refine ⟨res, ?_, hshort.union hmem' (hno₀ hl)⟩
        simp only [hm₁.mpr hr, hq', if_true, Option.getD_some, hres]
      · have hf₁ : b₁ = false := Bool.eq_false_iff.mpr (fun h => hr (hm₁.mp h))
        refine ⟨none, by simp [hf₁], fun e he => ?_⟩
        rcases (hmem e).mp he with he | he
        · exact hno₀ hl e he
        · exact hno₁ hr e he

/-- `lookupHandle` finds the node of the shortest stored prefix of the key. -/
theorem lookupHandle_spec (hh : Holds h t) (key : BitVec w) :
    ∃ r, lookupHandle h key = .ok (r.map Entry.handle) ∧ IsShortest t.entries key r := by
  have hm : t.Matches key := ⟨0#w, 0, hh.info, fun i hi => absurd hi (Nat.not_lt_zero i)⟩
  exact lookupFrom_spec hh.rep hh.wf hm hh.root hh.nodes_length

theorem Holds.get_entry (hh : Holds h t) (he : e ∈ t.entries) :
    ∃ n, h.get e.handle = some n ∧ n.value = some e.value ∧ n.key = e.key ∧
      n.mask = prefixMask w e.width := by
  obtain ⟨c, l, r, rfl⟩ := exists_plug (mem_entries.mp he)
  exact ⟨_, (Context.plug_rep.mp hh.rep).2.1, rfl, rfl, rfl⟩

theorem lookup_spec (hh : Holds h t) (key : BitVec w) :
    ∃ r, lookup h key = .ok (r.map Entry.value) ∧ IsShortest t.entries key r := by
  obtain ⟨r, hr, hs⟩ := lookupHandle_spec hh key
  refine ⟨r, ?_, hs⟩
  simp only [lookup, hr, ok_bind]
  cases r with
  | none => rfl
  | some e =>
    obtain ⟨n, hn, hv, _⟩ := hh.get_entry hs.1
    simp only [Option.map_some, deref_of_get hn, ok_bind, pure_eq_ok, hv]

theorem removeKey_spec (hh : Holds h t) (key : BitVec w) :
    ∃ r h' t', removeKey h key = .ok (h', r.map Entry.value) ∧ IsShortest t.entries key r ∧
      Holds h' t' ∧ t.entries.Perm (r.toList ++ t'.entries) := by
  obtain ⟨r, hr, hs⟩ := lookupHandle_spec hh key
  cases r with
  | none =>
    refine ⟨none, h, t, ?_, hs, hh, List.Perm.refl _⟩
    simp only [removeKey, hr, ok_bind]
    rfl
  | some e =>
    obtain ⟨h', t', hrem, hh', hperm⟩ := removeHandle_spec hh hs.1
    refine ⟨some e, h', t', ?_, hs, hh', hperm⟩
    simp only [removeKey, hr, ok_bind, Option.map_some]
    exact hrem

end Gem5.Base.Trie
