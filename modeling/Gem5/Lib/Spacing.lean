import Mathlib

namespace Lib

/-! Minimum distances between commands. A scheduler that does not look back at the commands keeps,
for every command, the time from which it is allowed. -/

/-- When a command is issued, and how long another one has to wait for it; `none` if the two have
nothing to do with each other. -/
structure Spacing (α : Type u) where
  time : α → Nat
  gap : α → α → Option Nat

namespace Spacing

variable {α : Type u} {sp : Spacing α}

def Spaced (sp : Spacing α) (c c' : α) : Prop := ∀ g ∈ sp.gap c c', sp.time c + g ≤ sp.time c'

/-- The log, newest first, is well spaced, and the allowed times account for all of it. -/
structure Guards (sp : Spacing α) (allowed : α → Nat) (log : List α) : Prop where
  spaced : log.Pairwise (fun later earlier => sp.Spaced earlier later)
  covers : ∀ c ∈ log, ∀ x, ∀ g ∈ sp.gap c x, sp.time c + g ≤ allowed x

theorem Guards.nil (allowed : α → Nat) : sp.Guards allowed [] :=
  ⟨.nil, nofun⟩

theorem Guards.mono {allowed allowed' : α → Nat} (h : sp.Guards allowed log)
    (hle : ∀ x, allowed x ≤ allowed' x) : sp.Guards allowed' log :=
  ⟨h.spaced, fun c hc x g hg => (h.covers c hc x g hg).trans (hle x)⟩

/-- A command is issued when it is allowed, and no time becomes earlier by that. -/
theorem Guards.emit {allowed allowed' : α → Nat} (h : sp.Guards allowed log)
    (hready : allowed c ≤ sp.time c) (hle : ∀ x, allowed x ≤ allowed' x)
    (hnew : ∀ x, ∀ g ∈ sp.gap c x, sp.time c + g ≤ allowed' x) : sp.Guards allowed' (c :: log) := by
  refine ⟨List.pairwise_cons.mpr ⟨fun e he g hg => ?_, h.spaced⟩, fun e he x g hg => ?_⟩
  · exact (h.covers e he c g hg).trans hready
  · rcases List.mem_cons.mp he with rfl | he
    · exact hnew x g hg
    · exact (h.covers e he x g hg).trans (hle x)

end Spacing

/-! Times, newest first, of which only so many may fall into a window. -/

/-- Any `n + 1` successive times span the window. -/
def Spans (n window : Nat) (times : List Nat) : Prop :=
  ∀ i t t', times[i]? = some t → times[i + n]? = some t' → t' + window ≤ t

theorem Spans.nil (n window : Nat) : Spans n window [] := by
  intro i t t' h
  simp at h

theorem Spans.cons (h : Spans (n + 1) window times)
    (hfirst : ∀ t', times[n]? = some t' → t' + window ≤ t) : Spans (n + 1) window (t :: times) := by
  intro i a b ha hb
  cases i with
  | zero =>
    obtain rfl := Option.some.inj ha
    apply hfirst
    simpa using hb
  | succ i =>
    apply h i a b
    · simpa using ha
    · rw [show i + 1 + (n + 1) = i + (n + 1) + 1 by omega] at hb
      simpa using hb

end Lib
