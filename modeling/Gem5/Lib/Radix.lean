import Mathlib

/-! Trees of tables in a flat memory. A path of offsets leads from the root to a table, and the
entry at the end of a longest path is a leaf. -/

namespace Lib.Radix

open List

/-- Where the entries of a table stand, how many it has at a depth, which addresses it takes up
there, and how an entry refers to the table or leaf below it. -/
structure Shape (W : Type u) where
  depth : Nat
  fits : Nat → Nat
  slot : Nat → Nat → Nat
  own : Nat → Nat → Nat → Prop
  next : W → Option Nat
  slot_own : ∀ {a k o}, o < fits k → own a k (slot a o)
  slot_inj : ∀ {a o p}, slot a o = slot a p → o = p

variable {W : Type u} (S : Shape W)

def child (mem : Nat → W) (a o : Nat) : Option Nat := S.next (mem (S.slot a o))

/-- What a path leads to. -/
def table (mem : Nat → W) (root : Nat) (path : List Nat) : Option Nat :=
  path.foldlM (child S mem) root

/-- The offsets are inside of the tables. -/
def Valid (path : List Nat) : Prop := ∀ k o, path[k]? = some o → o < S.fits k

/-- Different tables take up different addresses. -/
def Separate (mem : Nat → W) (root : Nat) : Prop :=
  ∀ p q a b x, Valid S p → Valid S q → p.length ≤ S.depth → q.length ≤ S.depth →
    table S mem root p = some a → table S mem root q = some b →
    S.own a p.length x → S.own b q.length x → p = q

variable {S} {mem m : Nat → W} {root a o : Nat} {p : List Nat}

theorem table_nil : table S mem root [] = some root := rfl

theorem table_snoc (p : List Nat) (o : Nat) :
    table S mem root (p ++ [o]) = (table S mem root p).bind (fun a => child S mem a o) := by
  unfold table
  rw [foldlM_append]
  cases foldlM (child S mem) root p with
  | none => rfl
  | some a =>
    change ((child S mem a o).bind some) = child S mem a o
    exact Option.bind_fun_some _

theorem valid_nil : Valid S [] := by
  intro k o hk
  cases hk

theorem valid_snoc : Valid S (p ++ [o]) ↔ Valid S p ∧ o < S.fits p.length := by
  constructor
  · intro h
    refine ⟨fun k x hk => h k x ?_, h p.length o getElem?_concat_length⟩
    obtain ⟨hlt, -⟩ := List.getElem?_eq_some_iff.mp hk
    rwa [getElem?_append_left hlt]
  rintro ⟨h, ho⟩ k x hk
  rcases Nat.lt_trichotomy k p.length with hlt | rfl | hgt
  · rw [getElem?_append_left hlt] at hk
    exact h k x hk
  · rw [getElem?_concat_length] at hk
    cases hk
    exact ho
  · rw [getElem?_eq_none (by rw [length_append]; exact hgt)] at hk
    cases hk

/-- Where the root has no entries there is no other table. -/
theorem eq_nil_of_blank (h : ∀ o, o < S.fits 0 → child S mem root o = none) (hp : Valid S p)
    (ha : table S mem root p = some a) : p = [] := by
  induction p using reverseRecOn generalizing a with
  | nil => rfl
  | append_singleton q o ih =>
    obtain ⟨hq, ho⟩ := valid_snoc.mp hp
    rw [table_snoc] at ha
    obtain ⟨b, hb, hchild⟩ := Option.bind_eq_some_iff.mp ha
    have hnil := ih hq hb
    subst hnil
    cases hb
    cases (h o ho).symm.trans hchild

/-- An entry belongs to one table only. -/
theorem Separate.slot_eq (h : Separate S mem root) (hp : Valid S p)
    (hq : Valid S q) (hpl : p.length ≤ S.depth) (hql : q.length ≤ S.depth)
    (ha : table S mem root p = some a) (hb : table S mem root q = some b)
    (ho : o < S.fits p.length) (ho' : o' < S.fits q.length) (heq : S.slot a o = S.slot b o') :
    p = q ∧ o = o' := by
  have hpq := h p q a b (S.slot a o) hp hq hpl hql ha hb (S.slot_own ho) (heq ▸ S.slot_own ho')
  subst hpq
  cases ha.symm.trans hb
  exact ⟨rfl, S.slot_inj heq⟩

/-- An entry of a table is changed. Above the leaves it was empty, and what it refers to then is a
table without entries. -/
structure Written (S : Shape W) (mem m : Nat → W) (root : Nat) (p : List Nat) (a o : Nat) :
    Prop where
  valid : Valid S p
  length : p.length ≤ S.depth
  table : table S mem root p = some a
  offset : o < S.fits p.length
  kept : ∀ q b x, Valid S q → q.length ≤ S.depth → Radix.table S mem root q = some b →
    S.own b q.length x → x ≠ S.slot a o → m x = mem x
  empty : p.length < S.depth → child S mem a o = none
  blank : p.length < S.depth → ∀ b, child S m a o = some b → ∀ o', o' < S.fits (p.length + 1) →
    child S m b o' = none

section

variable (h : Separate S mem root) (hw : Written S mem m root p a o)
include h hw

/-- Only the path through the entry leads to something else. -/
theorem Written.table_eq (hq : Valid S q) (hlen : q.length ≤ S.depth + 1) : Radix.table S m root q =
      if q = p ++ [o] then child S m a o else Radix.table S mem root q := by
  induction q using reverseRecOn with
  | nil =>
    rw [if_neg (by simp)]
    rfl
  | append_singleton q o' ih =>
    obtain ⟨hq, ho'⟩ := valid_snoc.mp hq
    have hql : q.length ≤ S.depth := by simpa using hlen
    rw [table_snoc, table_snoc, ih hq (by omega)]
    by_cases hnew : q = p ++ [o]
    · -- below the entry that was empty there is nothing before or after
      subst hnew
      have hlt : p.length < S.depth := by simpa using hql
      have hold : Radix.table S mem root (p ++ [o]) = none := by
        rw [table_snoc, hw.table]
        exact hw.empty hlt
      rw [if_pos rfl, if_neg (by simp), hold]
      cases hb : child S m a o with
      | none => rfl
      | some b => exact hw.blank hlt b hb o' (by simpa using ho')
    rw [if_neg hnew]
    cases hb : Radix.table S mem root q with
    | none =>
      rw [if_neg]
      · rfl
      · intro heq
        obtain ⟨rfl, -⟩ := append_inj' heq rfl
        cases hb.symm.trans hw.table
    | some b =>
      change child S m b o' = if q ++ [o'] = p ++ [o] then child S m a o else child S mem b o'
      by_cases hsame : q ++ [o'] = p ++ [o]
      · obtain ⟨rfl, hoo⟩ := append_inj' hsame rfl
        cases hoo
        cases hb.symm.trans hw.table
        rw [if_pos rfl]
      · rw [if_neg hsame]
        refine congrArg S.next (hw.kept q b _ hq hql hb (S.slot_own ho') (fun heq => hsame ?_))
        obtain ⟨rfl, rfl⟩ := h.slot_eq hq hw.valid hql hw.length hb hw.table ho' hw.offset heq
        rfl

/-- The tables are still apart if a new one is apart from the others. -/
theorem Written.separate
    (hfresh : p.length < S.depth → ∀ b, child S m a o = some b → ∀ q c x, Valid S q →
      q.length ≤ S.depth → Radix.table S mem root q = some c → S.own c q.length x →
      ¬ S.own b (p.length + 1) x) :
    Separate S m root := by
  have hnew : ∀ q c c' x, q ≠ p ++ [o] → Valid S q → q.length ≤ S.depth →
      (p ++ [o]).length ≤ S.depth → child S m a o = some c → Radix.table S mem root q = some c' →
      S.own c (p ++ [o]).length x → S.own c' q.length x → False := by
    intro q c c' x _ hq hql hpl hc hc' hx hx'
    have hlen : (p ++ [o]).length = p.length + 1 := by simp
    rw [hlen] at hx hpl
    exact hfresh (by omega) c hc q c' x hq hql hc' hx' hx
  intro q r b c x hq hr hql hrl hb hc hx hx'
  rw [hw.table_eq h hq (by omega)] at hb
  rw [hw.table_eq h hr (by omega)] at hc
  split at hb <;> rename_i hqp <;> split at hc <;> rename_i hrp
  · rw [hqp, hrp]
  · subst hqp
    exact (hnew r b c x hrp hr hrl hql hb hc hx hx').elim
  · subst hrp
    exact (hnew q c b x hqp hq hql hrl hc hb hx' hx).elim
  · exact h q r b c x hq hr hql hrl hb hc hx hx'

end

end Lib.Radix
