import Mathlib

namespace Lib

/-- A labelled transition system: where a run may start, and what a step with
a given label may do. -/
structure Machine (σ : Type u) (α : Type v) where
  init : σ → Prop
  step : σ → α → σ → Prop

namespace Machine

variable {σ : Type u} {α : Type v} {M : Machine σ α}

/-- A finite run, with its labels newest first. -/
inductive Run (M : Machine σ α) : List α → σ → Prop
  | start {s : σ} (h : M.init s) : Run M [] s
  | next {s t : σ} {a : α} {log : List α} (r : Run M log s) (h : M.step s a t) : Run M (a :: log) t

def Reachable (M : Machine σ α) (s : σ) : Prop := ∃ log, M.Run log s

/-- The same system, taking only steps whose label meets `C` in the state before. -/
def restrict (M : Machine σ α) (C : σ → α → Prop) : Machine σ α where
  init := M.init
  step s a t := M.step s a t ∧ C s a

/-- What holds at the start and survives every step holds after every run. -/
theorem Run.invariant {I : List α → σ → Prop} (h0 : ∀ s, M.init s → I [] s)
    (hstep : ∀ log s a t, I log s → M.step s a t → I (a :: log) t)
    {log : List α} {s : σ} (r : M.Run log s) : I log s := by
  induction r with
  | start h => exact h0 _ h
  | next _ h ih => exact hstep _ _ _ _ ih h

theorem Reachable.invariant {I : σ → Prop} (h0 : ∀ s, M.init s → I s)
    (hstep : ∀ s a t, I s → M.step s a t → I t) {s : σ} (h : M.Reachable s) : I s := by
  obtain ⟨log, r⟩ := h
  exact r.invariant (I := fun _ s => I s) h0 (fun _ s a t hi hs => hstep s a t hi hs)

theorem Reachable.start {s : σ} (h : M.init s) : M.Reachable s := ⟨[], .start h⟩

theorem Reachable.next {s t : σ} {a : α} (h : M.Reachable s) (hs : M.step s a t) :
    M.Reachable t := by
  obtain ⟨log, r⟩ := h
  exact ⟨a :: log, r.next hs⟩

theorem Reachable.of_restrict {C : σ → α → Prop} {s : σ} (h : (M.restrict C).Reachable s) :
    M.Reachable s := by
  refine h.invariant (fun s hs => .start hs) (fun s a t hs hstep => hs.next hstep.1)

section

variable {f : σ → α → Option σ} (hf : ∀ s a t, f s a = some t → M.step s a t)
include hf

/-- A run that a function computes, step by step, from a list of labels. -/
theorem Reachable.foldlM {l : List α} {s t : σ} (h : M.Reachable s) (hrun : l.foldlM f s = some t) :
    M.Reachable t := by
  induction l generalizing s with
  | nil => rwa [← Option.some.inj hrun]
  | cons a l ih =>
    obtain ⟨u, hu, hrest⟩ := Option.bind_eq_some_iff.mp hrun
    exact ih (h.next (hf s a u hu)) hrest

theorem restrict_step (C : σ → α → Prop) [∀ s a, Decidable (C s a)] (s : σ) (a : α) (t : σ)
    (h : (if C s a then f s a else none) = some t) : (M.restrict C).step s a t := by
  split_ifs at h with hC
  exact ⟨hf s a t h, hC⟩

/-- The end of a computed run, with what is evaluated there. -/
theorem exists_run {s : σ} (h : M.Reachable s) (l : List α) {P : σ → Prop} [DecidablePred P]
    (hrun : (l.foldlM f s).any (fun t => decide (P t)) = true) : ∃ t, M.Reachable t ∧ P t := by
  obtain ⟨t, ht, hP⟩ := (Option.any_eq_true _ _).mp hrun
  exact ⟨t, h.foldlM hf ht, of_decide_eq_true hP⟩

/-- The end of a computed run, and one more step. -/
theorem exists_run_next
    {s : σ} (h : M.Reachable s) (l : List α) {a : α} {P : σ → σ → Prop} [DecidableRel P]
    (hrun : (l.foldlM f s).any (fun t => (f t a).any (fun u => decide (P t u))) = true) :
    ∃ t u, M.Reachable t ∧ M.step t a u ∧ P t u := by
  obtain ⟨t, ht, hnext⟩ := (Option.any_eq_true _ _).mp hrun
  obtain ⟨u, hu, hP⟩ := (Option.any_eq_true _ _).mp hnext
  exact ⟨t, u, h.foldlM hf ht, hf t a u hu, of_decide_eq_true hP⟩

end

end Machine

end Lib
