import Mathlib

/-! A map kept as the list of its entries, in the order of their keys. -/

namespace Lib.SortedMap

open List

variable {κ : Type u} {β : Type v} [LinearOrder κ]

def lookup (k : κ) (l : List (κ × β)) : Option β := (l.find? (fun e => e.1 = k)).map Prod.snd

/-- Gives a key the value that `f` makes of the one it has. -/
def upsert (k : κ) (f : Option β → β) : List (κ × β) → List (κ × β)
  | [] => [(k, f none)]
  | (k', v) :: rest =>
    if k = k' then (k', f (some v)) :: rest
    else if k < k' then (k, f none) :: (k', v) :: rest
    else (k', v) :: upsert k f rest

def erase (k : κ) (l : List (κ × β)) : List (κ × β) := l.filter (fun e => e.1 ≠ k)

def Ascending (l : List (κ × β)) : Prop := l.Pairwise (fun e e' => e.1 < e'.1)

theorem lookup_cons (k k' : κ) (v : β) (rest : List (κ × β)) :
    lookup k ((k', v) :: rest) = if k' = k then some v else lookup k rest := by
  unfold lookup
  rw [find?_cons]
  by_cases h : k' = k <;> simp [h]

variable {l rest : List (κ × β)} {f : Option β → β} {k : κ}

theorem lookup_eq_none (h : ∀ e ∈ l, e.1 ≠ k) : lookup k l = none := by
  unfold lookup
  rw [find?_eq_none.mpr (fun e he => by simpa using h e he)]
  rfl

theorem mem_of_lookup {v : β} (h : lookup k l = some v) : (k, v) ∈ l := by
  obtain ⟨e, he, hv⟩ := Option.map_eq_some_iff.mp h
  have hk : e.1 = k := by simpa using find?_some he
  have hmem := mem_of_find?_eq_some he
  rwa [show e = (k, v) from Prod.ext hk hv] at hmem

theorem Ascending.tail {e : κ × β} (h : Ascending (e :: rest)) :
    Ascending rest := (pairwise_cons.mp h).2

theorem Ascending.lookup_lower {k k' : κ} {v : β}
    (h : Ascending ((k', v) :: rest)) (hk : k < k') : lookup k ((k', v) :: rest) = none := by
  refine lookup_eq_none (fun e he => ?_)
  rcases mem_cons.mp he with he | he
  · rw [he]
    exact hk.ne'
  · exact (hk.trans ((pairwise_cons.mp h).1 e he)).ne'

theorem Ascending.lookup_of_mem {v : β} (h : Ascending l)
    (hmem : (k, v) ∈ l) : lookup k l = some v := by
  induction l with
  | nil => cases hmem
  | cons e rest ih =>
    obtain ⟨k', v'⟩ := e
    rw [lookup_cons]
    rcases mem_cons.mp hmem with heq | hmem
    · cases heq
      rw [if_pos rfl]
    · rw [if_neg ((pairwise_cons.mp h).1 _ hmem).ne, ih h.tail hmem]

theorem Ascending.mem_upsert (h : Ascending l)
    {e : κ × β} (he : e ∈ upsert k f l) : e = (k, f (lookup k l)) ∨ e ∈ l := by
  induction l with
  | nil => exact .inl (mem_singleton.mp he)
  | cons e' rest ih =>
    obtain ⟨k', v⟩ := e'
    unfold upsert at he
    split at he
    · rename_i heq
      subst k'
      rw [lookup_cons, if_pos rfl]
      rcases mem_cons.mp he with he | he
      · exact .inl he
      · exact .inr (.tail _ he)
    rename_i hne
    split_ifs at he with hlt
    · rw [h.lookup_lower hlt]
      exact mem_cons.mp he
    rw [lookup_cons, if_neg (Ne.symm hne)]
    rcases mem_cons.mp he with he | he
    · exact .inr (mem_cons.mpr (.inl he))
    · rcases ih h.tail he with he | he
      · exact .inl he
      · exact .inr (.tail _ he)

theorem Ascending.upsert (h : Ascending l) : Ascending (upsert k f l) := by
  induction l with
  | nil => exact pairwise_singleton _ _
  | cons e rest ih =>
    obtain ⟨k', v⟩ := e
    obtain ⟨hlt, hrest⟩ := pairwise_cons.mp h
    unfold SortedMap.upsert
    split
    · exact pairwise_cons.mpr ⟨hlt, hrest⟩
    rename_i hne
    split_ifs with hk
    · refine pairwise_cons.mpr ⟨fun e he => ?_, h⟩
      rcases mem_cons.mp he with he | he
      · exact he ▸ hk
      · exact hk.trans (hlt e he)
    refine pairwise_cons.mpr ⟨fun e he => ?_, ih h.tail⟩
    rcases h.tail.mem_upsert he with he | he
    · rw [he]
      exact lt_of_le_of_ne (not_lt.mp hk) (Ne.symm hne)
    · exact hlt e he

theorem Ascending.lookup_upsert (h : Ascending l) (k k' : κ) :
    lookup k' (SortedMap.upsert k f l) = if k = k' then some (f (lookup k l)) else lookup k' l := by
  induction l with
  | nil =>
    rw [SortedMap.upsert, lookup_cons]
    rfl
  | cons e rest ih =>
    obtain ⟨a, v⟩ := e
    unfold SortedMap.upsert
    split
    · rename_i heq
      subst a
      rw [lookup_cons, lookup_cons, lookup_cons, if_pos rfl]
      split <;> rfl
    rename_i hne
    split
    · rename_i hlt
      rw [lookup_cons, h.lookup_lower hlt]
    · rw [lookup_cons, ih h.tail, lookup_cons, lookup_cons, if_neg (Ne.symm hne)]
      by_cases hk : k = k'
      · rw [if_pos hk, if_pos hk, if_neg (fun h => hne (hk.trans h.symm))]
      · rw [if_neg hk, if_neg hk]

theorem Ascending.erase (h : Ascending l) (k : κ) : Ascending (erase k l) :=
  h.filter _

theorem lookup_filter (p : κ → Bool) (k : κ) (l : List (κ × β)) :
    lookup k (l.filter (fun e => p e.1)) = if p k then lookup k l else none := by
  induction l with
  | nil => exact (ite_self _).symm
  | cons e rest ih =>
    obtain ⟨a, v⟩ := e
    rw [filter_cons, lookup_cons]
    split
    · rw [lookup_cons, ih]
      split
      · rename_i hp heq
        rw [← heq, if_pos hp]
      · rfl
    · rw [ih]
      split
      · rename_i hp hk
        rw [if_neg (by rintro rfl; exact hp hk)]
      · rfl

theorem lookup_erase (k k' : κ) (l : List (κ × β)) :
    lookup k' (erase k l) = if k = k' then none else lookup k' l := by
  rw [erase, lookup_filter (fun a => a ≠ k)]
  simp only [ne_eq, decide_not, Bool.not_eq_true', decide_eq_false_iff_not, eq_comm (a := k'),
    ite_not]

end Lib.SortedMap
