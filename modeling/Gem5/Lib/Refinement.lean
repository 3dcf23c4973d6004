import Gem5.Lib.Outcome

namespace Lib

/-- A computation follows what is specified: it ends in the same fault, or in a result related to
the specified one; or else in one of the faults `extra`. -/
def Follows (extra : ε → Prop) (R : α → β → Prop) (spec : Except ε α) (impl : Except ε β) : Prop :=
  Meets impl (fun e => extra e ∨ spec = .error e) (fun b => ∃ a, spec = .ok a ∧ R a b)

namespace Follows

variable {extra : ε → Prop} {R : α → β → Prop} {a : α} {b : β}

theorem ok (h : R a b) : Follows extra R (.ok a) (.ok b) := Meets.ok ⟨a, rfl, h⟩

theorem error (e : ε) : Follows extra R (.error e) (.error e) := Meets.error (.inr rfl)

theorem map {R' : γ → δ → Prop} {f : α → γ} {g : β → δ} {spec : Except ε α} {impl : Except ε β}
    (h : Follows extra R spec impl) (hfg : ∀ a b, R a b → R' (f a) (g b)) :
    Follows extra R' (spec.map f) (impl.map g) := by
  cases impl with
  | error e =>
    refine Meets.error ((Meets.of_error h rfl).imp_right (fun hspec => ?_))
    rw [hspec]
    rfl
  | ok b =>
    obtain ⟨a, hspec, hR⟩ := Meets.of_ok h rfl
    exact Meets.ok ⟨f a, by rw [hspec]; rfl, hfg a b hR⟩

end Follows

end Lib
