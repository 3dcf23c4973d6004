import Mathlib

namespace Lib

/-! Loops whose number of rounds is not known beforehand. -/

variable {σ : Type u} {α : Type v} {f : σ → σ ⊕ α}

/-- Runs the body until it gives a result; `none` when the fuel runs out. -/
def loop (f : σ → σ ⊕ α) : Nat → σ → Option α
  | 0, _ => none
  | fuel + 1, s =>
    match f s with
    | .inl s' => loop f fuel s'
    | .inr a => some a

theorem loop_succ_inl (h : f s = .inl s') (fuel : Nat) : loop f (fuel + 1) s = loop f fuel s' := by
  rw [loop, h]

theorem loop_succ_inr (h : f s = .inr a) (fuel : Nat) : loop f (fuel + 1) s = some a := by
  rw [loop, h]

/-- A loop that has ended does not need more fuel. -/
theorem loop_mono (h : loop f n s = some a) (hle : n ≤ m) : loop f m s = some a := by
  induction n generalizing s m with
  | zero => cases h
  | succ n ih =>
    obtain ⟨m, rfl⟩ := Nat.exists_eq_add_of_le' (Nat.le_of_lt_succ (Nat.lt_succ_of_le hle))
    rw [← Nat.add_assoc]
    cases hf : f s with
    | inl s' =>
      rw [loop_succ_inl hf] at h ⊢
      exact ih h (by omega)
    | inr a' =>
      rw [loop_succ_inr hf] at h ⊢
      exact h

/-- The loop ends with a result. -/
def Ends (f : σ → σ ⊕ α) (s : σ) (a : α) : Prop := ∃ n, ∀ fuel, n ≤ fuel → loop f fuel s = some a

theorem Ends.of_loop (h : loop f n s = some a) : Ends f s a :=
  ⟨n, fun _ hle => loop_mono h hle⟩

/-- A loop ends if its rounds keep an invariant and make a measure smaller. -/
theorem exists_ends (I : σ → Prop) (μ : σ → Nat)
    (hround : ∀ s s', I s → f s = .inl s' → I s' ∧ μ s' < μ s) (hs : I s) :
    ∃ s' a, I s' ∧ f s' = .inr a ∧ loop f (μ s + 1) s = some a := by
  induction hn : μ s using Nat.strong_induction_on generalizing s with
  | _ n ih =>
    cases hf : f s with
    | inl s' =>
      obtain ⟨hs', hlt⟩ := hround s s' hs hf
      obtain ⟨t, a, ht, hend, hloop⟩ := ih (μ s') (hn ▸ hlt) hs' rfl
      refine ⟨t, a, ht, hend, ?_⟩
      rw [loop_succ_inl hf]
      exact loop_mono hloop (by omega)
    | inr a => exact ⟨s, a, hs, hf, loop_succ_inr hf n⟩

/-- What the rounds of a loop keep holds before its last round. -/
theorem loop_invariant (I : σ → Prop) (hround : ∀ s s', I s → f s = .inl s' → I s') (hs : I s)
    (h : loop f n s = some a) : ∃ s', I s' ∧ f s' = .inr a := by
  induction n generalizing s with
  | zero => cases h
  | succ n ih =>
    cases hf : f s with
    | inl s' =>
      rw [loop_succ_inl hf] at h
      exact ih (hround s s' hs hf) h
    | inr a' =>
      rw [loop_succ_inr hf] at h
      exact ⟨s, hs, by rw [hf, Option.some.inj h]⟩

/-- A loop does not end if its rounds keep an invariant under which there is another round. -/
theorem loop_eq_none (D : σ → Prop) (hround : ∀ s, D s → ∃ s', f s = .inl s' ∧ D s') (hs : D s)
    (fuel : Nat) : loop f fuel s = none := by
  induction fuel generalizing s with
  | zero => rfl
  | succ fuel ih =>
    obtain ⟨s', hf, hs'⟩ := hround s hs
    rw [loop_succ_inl hf]
    exact ih hs'

/-! Links from object to object. -/

section Links

variable {β : Type w} {γ : Type x} {next : β → Option β}

/-- The objects on the way from one to another. -/
inductive Path (next : β → Option β) : β → List β → β → Prop
  | single (i : β) : Path next i [i] i
  | cons {i j k : β} {l : List β} (h : next i = some j) (rest : Path next j l k) :
      Path next i (i :: l) k

theorem Path.snoc (h : Path next i l j) (hk : next j = some k) : Path next i (l ++ [k]) k := by
  induction h with
  | single i => exact .cons hk (.single k)
  | cons hj _ ih => exact .cons hj (ih hk)

theorem Path.mem_last (h : Path next i l k) : k ∈ l := by
  induction h with
  | single i => exact List.mem_singleton_self i
  | cons _ _ ih => exact .tail _ ih

theorem Path.mono (h : Path next i l k) (hsame : ∀ j ∈ l, next' j = next j) : Path next' i l k := by
  induction h with
  | single i => exact .single i
  | cons hj _ ih =>
    refine .cons ?_ (ih (fun j hj => hsame j (.tail _ hj)))
    rw [hsame _ List.mem_cons_self]
    exact hj

/-- A loop that follows the links ends where they do. -/
theorem Path.ends {f : β × σ → (β × σ) ⊕ γ} (hf : ∀ i s j s', f (i, s) = .inl (j, s') →
    next i = some j)
    {i k : β} {l : List β} (h : Path next i l k) (hlast : next k = none) (s : σ) :
    ∃ a, Ends f (i, s) a := by
  suffices hloop : ∃ a, loop f l.length (i, s) = some a from
    hloop.elim (fun a ha => ⟨a, .of_loop ha⟩)
  induction h generalizing s with
  | single i =>
    cases hr : f (i, s) with
    | inl t =>
      rw [hf i s t.1 t.2 hr] at hlast
      cases hlast
    | inr a => exact ⟨a, loop_succ_inr hr 0⟩
  | @cons i j k l hj _ ih =>
    cases hr : f (i, s) with
    | inl t =>
      have htarget := hf i s t.1 t.2 hr
      rw [hj] at htarget
      obtain ⟨a, ha⟩ := ih hlast t.2
      refine ⟨a, ?_⟩
      rw [List.length_cons, loop_succ_inl hr]
      rwa [Option.some.inj htarget] at ha
    | inr a => exact ⟨a, loop_succ_inr hr _⟩

end Links

end Lib
