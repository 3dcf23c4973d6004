import Gem5.Base.TrieLookup
import Gem5.Lib.Transition

namespace Gem5.Base.Trie

open Lib List Entry

variable {w : Nat} {V : Type}

inductive Op (w : Nat) (V : Type)
  | insert (key : BitVec w) (width : Nat) (val : V)
  | removeHandle (handle : Nat)
  | removeKey (key : BitVec w)

inductive Ret (V : Type)
  | handle (p : Nat)
  | value (v : Option V)

/-- A trie, and the prefixes that its caller has stored. -/
structure State (w : Nat) (V : Type) where
  nodes : Nodes w V
  stored : List (Entry w V)

namespace Op

def apply (h : Nodes w V) : Op w V → Res (Nodes w V × Ret V)
  | insert key width val => do
    let (h, p) ← Trie.insert h key width val
    return (h, .handle p)
  | removeHandle p => do
    let (h, v) ← Trie.removeHandle h p
    return (h, .value v)
  | removeKey key => do
    let (h, v) ← Trie.removeKey h key
    return (h, .value v)

section

variable (stored : List (Entry w V))
include stored

/-- What a caller may do: store only prefixes that are not stored, and use only
handles that are live. -/
def Allowed : Op w V → Prop
  | insert key width _ => 1 ≤ width ∧ width ≤ w ∧
      ∀ e ∈ stored, ¬(e.width = width ∧ e.key = key &&& prefixMask w width)
  | removeHandle p => ∃ e ∈ stored, e.handle = p
  | removeKey _ => True

instance (op : Op w V) : Decidable (op.Allowed stored) :=
  match op with
  | insert key width _ => inferInstanceAs (Decidable (1 ≤ width ∧ width ≤ w ∧
      ∀ e ∈ stored, ¬(e.width = width ∧ e.key = key &&& prefixMask w width)))
  | removeHandle p => inferInstanceAs (Decidable (∃ e ∈ stored, e.handle = p))
  | removeKey _ => inferInstanceAs (Decidable True)

/-- The stored prefixes after a call that returned `ret`. -/
def record : Op w V → Ret V → List (Entry w V)
  | insert key width val, .handle p => ⟨p, key &&& prefixMask w width, width, val⟩ :: stored
  | insert _ _ _, .value _ => stored
  | removeHandle p, _ => stored.filter (fun e => e.handle ≠ p)
  | removeKey key, _ =>
    match shortest stored key with
    | some found => stored.filter (fun e => e.handle ≠ found.handle)
    | none => stored

/-- What a call has to return: a handle that is not in use, or the value of the
prefix that it removes. -/
def Returns : Op w V → Ret V → Prop
  | insert _ _ _, .handle p => ∀ e ∈ stored, e.handle ≠ p
  | removeHandle p, .value v => ∃ e ∈ stored, e.handle = p ∧ v = some e.value
  | removeKey key, .value v => v = (shortest stored key).map Entry.value
  | _, _ => False

end

end Op

def machine (w : Nat) (V : Type) : Machine (State w V) (Op w V) where
  init s := s = ⟨init, []⟩
  step s op s' := op.Allowed s.stored ∧
    ∃ ret, op.apply s.nodes = .ok (s'.nodes, ret) ∧ s'.stored = op.record s.stored ret

/-- Memory holds a trie with exactly the stored prefixes. -/
structure Refines (s : State w V) : Prop where
  tree : ∃ t, Holds s.nodes t ∧ t.entries.Perm s.stored
  unique : Unique s.stored

theorem init_holds : Holds (init : Nodes w V) (.node head 0#w 0 none .nil .nil) := by
  have hget : (init : Nodes w V).get head = some (cell 0#w 0 none none none none) := by
    simp [init, head, Heap.alloc, Heap.empty, Node.make, cell, prefixMask_zero]
  refine ⟨⟨hget, trivial, trivial⟩, ⟨⟨Nat.zero_le w, BitVec.zero_and, fun _ => rfl, ?_, ?_, ?_, ?_,
    fun _ => rfl⟩, trivial, trivial⟩, ?_, Heap.Bounded.alloc ?_ _, rfl, rfl⟩
  · simp [Tree.info]
  · simp [Tree.info]
  · simp [Tree.info]
  · exact fun _ h0 => absurd rfl h0
  · simp [Tree.ptrs, Tree.nodes]
  · intro p n hp
    cases hp

theorem Holds.handles_nodup {h : Nodes w V} {t : Tree w V} (hh : Holds h t) :
    (t.entries.map handle).Nodup := by
  have hsub : ∀ xs : List (Nat × BitVec w × Nat × Option V),
      ((xs.filterMap toEntry).map handle).Sublist (xs.map Prod.fst) := by
    intro xs
    induction xs with
    | nil => exact List.Sublist.refl _
    | cons x xs ih =>
      obtain ⟨p, k, n, v⟩ := x
      cases v with
      | none => exact ih.cons _
      | some val => exact ih.cons_cons _
  exact hh.nodup.sublist (hsub t.nodes)

theorem filter_handle_perm {xs ys : List (Entry w V)} {e : Entry w V}
    (hn : (xs.map handle).Nodup) (hp : xs.Perm (e :: ys)) :
    ys.Perm (xs.filter (fun f => f.handle ≠ e.handle)) := by
  have hn' := (hp.map handle).nodup_iff.mp hn
  rw [map_cons, nodup_cons] at hn'
  have hys : ys.filter (fun f => f.handle ≠ e.handle) = ys := by
    refine filter_eq_self.mpr (fun f hf => ?_)
    simp only [ne_eq, decide_not, Bool.not_eq_eq_eq_not, Bool.not_true, decide_eq_false_iff_not]
    exact fun heq => hn'.1 (mem_map.mpr ⟨f, hf, heq⟩)
  have hf := hp.filter (fun f => decide (f.handle ≠ e.handle))
  rw [filter_cons_of_neg (by simp), hys] at hf
  exact hf.symm

theorem Unique.subset (hu : Unique xs) (hs : ys ⊆ xs) : Unique ys :=
  fun e he f hf => hu e (hs he) f (hs hf)

theorem Unique.cons {xs : List (Entry w V)} (hu : Unique xs) {e : Entry w V}
    (hfree : ∀ f ∈ xs, ¬(f.width = e.width ∧ f.key = e.key)) : Unique (e :: xs) := by
  intro a ha b hb hw hk
  rcases mem_cons.mp ha with rfl | ha'
  · rcases mem_cons.mp hb with rfl | hb'
    · rfl
    · exact absurd ⟨hw.symm, hk.symm⟩ (hfree b hb')
  · rcases mem_cons.mp hb with rfl | hb'
    · exact absurd ⟨hw, hk⟩ (hfree a ha')
    · exact hu a ha' b hb' hw hk

/-- Every allowed call returns, with the right answer, and keeps the trie and the
stored prefixes together. -/
theorem Refines.apply {s : State w V} (hs : Refines s) {op : Op w V} (ha : op.Allowed s.stored) :
    ∃ nodes ret, op.apply s.nodes = .ok (nodes, ret) ∧ op.Returns s.stored ret ∧
      Refines ⟨nodes, op.record s.stored ret⟩ := by
  obtain ⟨⟨t, hh, hperm⟩, hu⟩ := hs
  have hnodup : (s.stored.map handle).Nodup :=
    (hperm.map handle).nodup_iff.mp hh.handles_nodup
  cases op with
  | insert key width val =>
    obtain ⟨hpos, hw, hfree⟩ := ha
    obtain ⟨h', t', p, hins, hh', hperm'⟩ := insert_spec hh key val hpos hw
      (fun e he => hfree e (hperm.mem_iff.mp he))
    have hp' := hperm'.trans (hperm.cons _)
    refine ⟨h', .handle p, ?_, ?_, ⟨⟨t', hh', hp'⟩, hu.cons hfree⟩⟩
    · simp only [Op.apply, hins, ok_bind]
      rfl
    · have hn := (hp'.map handle).nodup_iff.mp hh'.handles_nodup
      rw [map_cons, nodup_cons] at hn
      exact fun e he heq => hn.1 (mem_map.mpr ⟨e, he, heq⟩)
  | removeHandle p =>
    obtain ⟨e, he, rfl⟩ := ha
    obtain ⟨h', t', hrem, hh', hperm'⟩ := removeHandle_spec hh (hperm.mem_iff.mpr he)
    refine ⟨h', .value (some e.value), ?_, ⟨e, he, rfl, rfl⟩, ⟨⟨t', hh', ?_⟩, ?_⟩⟩
    · simp only [Op.apply, hrem, ok_bind]
      rfl
    · exact filter_handle_perm hnodup (hperm.symm.trans hperm')
    · exact hu.subset (filter_subset_self _)
  | removeKey key =>
    obtain ⟨r, h', t', hrem, hshort, hh', hperm'⟩ := removeKey_spec hh key
    obtain rfl : r = shortest s.stored key :=
      (hshort.perm hperm).eq hu (shortest_isShortest s.stored key)
    refine ⟨h', .value ((shortest s.stored key).map value), ?_, rfl, ?_⟩
    · simp only [Op.apply, hrem, ok_bind]
      rfl
    simp only [Op.record]
    cases hfound : shortest s.stored key with
    | none =>
      rw [hfound] at hperm'
      exact ⟨⟨t', hh', hperm'.symm.trans hperm⟩, hu⟩
    | some e =>
      rw [hfound] at hperm'
      exact ⟨⟨t', hh', filter_handle_perm hnodup (hperm.symm.trans hperm')⟩,
        hu.subset (filter_subset_self _)⟩

theorem Refines.reachable {s : State w V} (hr : (machine w V).Reachable s) : Refines s := by
  refine hr.invariant ?_ ?_
  · rintro _ rfl
    exact ⟨⟨_, init_holds, List.Perm.refl _⟩, nofun⟩
  · rintro s op ⟨nodes, stored⟩ hs ⟨hallow, ret, happ, rfl⟩
    obtain ⟨nodes', ret', happ', _, href⟩ := hs.apply hallow
    rw [happ'] at happ
    cases happ
    exact href

/-- A trie is a prefix map: in every run, `lookup` answers with the shortest
stored prefix of the key, every stored prefix is at the node that its handle
names, and every allowed call returns, with the right answer. -/
theorem trie_refines_prefix_map {s : State w V} (hr : (machine w V).Reachable s) :
    (∀ key, lookup s.nodes key = .ok ((shortest s.stored key).map Entry.value)) ∧
    (∀ e ∈ s.stored, ∃ n, s.nodes.get e.handle = some n ∧ n.value = some e.value ∧
      n.key = e.key ∧ n.mask = prefixMask w e.width) ∧
    (∀ op : Op w V, op.Allowed s.stored →
      ∃ nodes ret, op.apply s.nodes = .ok (nodes, ret) ∧ op.Returns s.stored ret) := by
  have href := Refines.reachable hr
  obtain ⟨t, hh, hperm⟩ := href.tree
  refine ⟨fun key => ?_, fun e he => hh.get_entry (hperm.mem_iff.mpr he), fun op hop => ?_⟩
  · obtain ⟨r, hlook, hshort⟩ := lookup_spec hh key
    rw [hlook, (hshort.perm hperm).eq href.unique (shortest_isShortest s.stored key)]
  · obtain ⟨nodes, ret, happ, hret, _⟩ := href.apply hop
    exact ⟨nodes, ret, happ, hret⟩

/-- Two prefixes that share one bit, looked up by a key that the longer one
matches too. -/
theorem trie_refines_prefix_map_two :
    ∃ s : State 4 Nat, (machine 4 Nat).Reachable s ∧ s.stored.length = 2 ∧
      lookup s.nodes 0b1011#4 = .ok (some 7) := by
  have h₁ := Machine.Reachable.start (M := machine 4 Nat) rfl
  have h₂ := h₁.next (a := .insert 0b1011#4 4 5) (t := ⟨_, _⟩) ⟨by decide, _, rfl, rfl⟩
  have h₃ := h₂.next (a := .insert 0b1000#4 2 7) (t := ⟨_, _⟩) ⟨by decide, _, rfl, rfl⟩
  refine ⟨_, h₃, rfl, ?_⟩
  rw [(trie_refines_prefix_map h₃).1]
  decide

end Gem5.Base.Trie
