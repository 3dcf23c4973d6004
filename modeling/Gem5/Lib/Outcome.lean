import Mathlib

namespace Lib

open List

theorem ite_error_eq_ok {ε : Type u} {α : Type v} {a : α} {e : ε} {x : Except ε α}
    {p : Prop} [Decidable p] : (if p then .error e else x) = .ok a ↔ ¬p ∧ x = .ok a := by
  split <;> simp [*]

theorem toOption_eq_some {ε : Type u} {α : Type v} {a : α} {x : Except ε α} :
    x.toOption = some a ↔ x = .ok a := by
  cases x <;> simp [Except.toOption]

@[simp] theorem ok_bind {ε : Type u} {α β : Type v} (a : α) (f : α → Except ε β) :
    (Except.ok a >>= f) = f a := rfl

@[simp] theorem error_bind {ε : Type u} {α β : Type v} (e : ε) (f : α → Except ε β) :
    (Except.error e >>= f) = .error e := rfl

@[simp] theorem pure_eq_ok {ε : Type u} {α : Type v} (a : α) : (pure a : Except ε α) = .ok a := rfl

theorem bind_eq_ok {ε : Type u} {α β : Type v} {b : β} {x : Except ε α} {f : α → Except ε β} :
    (x >>= f) = .ok b ↔ ∃ a, x = .ok a ∧ f a = .ok b := by
  cases x <;> simp

/-- A computation ends with a result that meets `Q`, or with a fault that meets `E`. -/
def Meets {ε : Type u} {α : Type v} (x : Except ε α) (E : ε → Prop) (Q : α → Prop) : Prop :=
  match x with
  | .ok a => Q a
  | .error e => E e

/-- A computation ends with a result that meets `Q`. -/
abbrev Yields {ε : Type u} {α : Type v} (x : Except ε α) (Q : α → Prop) : Prop :=
  Meets x (fun _ => False) Q

namespace Meets

variable {ε : Type u} {α β : Type v} {E : ε → Prop} {Q : α → Prop} {R : β → Prop}

theorem ok (h : Q a) : Meets (.ok a : Except ε α) E Q := h

theorem pure (h : Q a) : Meets (Pure.pure a : Except ε α) E Q := h

theorem error (h : E e) : Meets (.error e : Except ε α) E Q := h

theorem throw (h : E e) : Meets (MonadExcept.throw e : Except ε α) E Q := h

theorem bind (hx : Meets x E Q) (hf : ∀ a, Q a → Meets (f a) E R) : Meets (x >>= f) E R := by
  cases x with
  | ok a => exact hf a hx
  | error e => exact hx

theorem mono {Q' : α → Prop} (hx : Meets x E Q) (h : ∀ a, Q a → Q' a) : Meets x E Q' := by
  cases x with
  | ok a => exact h a hx
  | error e => exact hx

theorem map (hx : Meets x E Q) (h : ∀ a, Q a → R (f a)) : Meets (x.map f) E R := by
  cases x with
  | ok a => exact h a hx
  | error e => exact hx

theorem mono_error {E' : ε → Prop} (hx : Meets x E Q) (h : ∀ e, E e → E' e) : Meets x E' Q := by
  cases x with
  | ok a => exact hx
  | error e => exact h e hx

theorem of_yields (hx : Meets x (fun _ => False) Q) : Meets x E Q :=
  hx.mono_error (fun _ he => he.elim)

theorem of_ok (hx : Meets x E Q) (h : x = .ok a) : Q a := by
  subst h
  exact hx

theorem of_error (hx : Meets x E Q) (h : x = .error e) : E e := by
  subst h
  exact hx

theorem and {E' : ε → Prop} {Q' : α → Prop} (h : Meets x E Q) (h' : Meets x E' Q') :
    Meets x E (fun a => Q a ∧ Q' a) := by
  cases x with
  | ok a => exact ⟨h, h'⟩
  | error e => exact h

/-- A loop keeps what each of its rounds keeps. -/
theorem foldlM {γ : Type w} {f : α → γ → Except ε α} {l : List γ} {a : α} (ha : Q a)
    (hf : ∀ c ∈ l, ∀ a, Q a → Meets (f a c) E Q) : Meets (l.foldlM f a) E Q := by
  induction l generalizing a with
  | nil => exact ha
  | cons c l ih =>
    rw [foldlM_cons]
    exact (hf c mem_cons_self a ha).bind
      (fun a ha => ih ha (fun c hc => hf c (.tail _ hc)))

/-- A loop whose rounds keep something that says which rounds are left. -/
theorem foldlM_left {γ : Type w} {f : α → γ → Except ε α} {R : List γ → α → Prop}
    {l : List γ} {a : α}
    (ha : R l a) (hf : ∀ c l a, R (c :: l) a → Meets (f a c) E (R l)) :
    Meets (l.foldlM f a) E (R []) := by
  induction l generalizing a with
  | nil => exact ha
  | cons c l ih =>
    rw [foldlM_cons]
    exact (hf c l a ha).bind (fun a ha => ih ha)

theorem mapM {γ : Type w} {f : γ → Except ε α} {R : γ → α → Prop} {l : List γ}
    (h : ∀ c ∈ l, Meets (f c) E (R c)) : Meets (l.mapM f) E (fun as => List.Forall₂ R l as) := by
  induction l with
  | nil => exact List.Forall₂.nil
  | cons c l ih =>
    rw [mapM_cons]
    refine (h c mem_cons_self).bind (fun a ha => ?_)
    refine (ih (fun c hc => h c (mem_cons_of_mem _ hc))).bind (fun as has => ?_)
    exact Meets.pure (List.Forall₂.cons ha has)

theorem anyM {γ : Type w} {p : γ → Except ε Bool} {l : List γ}
    (h : ∀ c ∈ l, Meets (p c) E (fun _ => True)) : Meets (l.anyM p) E (fun _ => True) := by
  induction l with
  | nil => trivial
  | cons c l ih =>
    rw [List.anyM]
    refine (h c mem_cons_self).bind (fun b _ => ?_)
    split
    · trivial
    · exact ih (fun c hc => h c (.tail _ hc))

end Meets

end Lib
