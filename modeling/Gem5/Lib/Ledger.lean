import Mathlib

namespace Lib

open List Function

/-! What the holders of a list of keys hold together, when one of them changes. -/

variable {κ : Type u} {α : Type v}

section

variable [DecidableEq κ] {keys : List κ} (hnodup : keys.Nodup) {k : κ} (hk : k ∈ keys)
include hnodup hk

theorem flatMap_exchange {f g : κ → List α} (hfg : ∀ j, j ≠ k → f j = g j) :
    (g k ++ keys.flatMap f).Perm (f k ++ keys.flatMap g) := by
  have hsplit : ∀ h : κ → List α, (keys.flatMap h).Perm (h k ++ (keys.erase k).flatMap h) :=
    fun h => (perm_cons_erase hk).flatMap_right h
  have hrest : (keys.erase k).flatMap f = (keys.erase k).flatMap g := by
    refine flatMap_congr (fun j hj => hfg j ?_)
    rintro rfl
    exact hnodup.not_mem_erase hj
  calc g k ++ keys.flatMap f
    _ |>.Perm (g k ++ (f k ++ (keys.erase k).flatMap g)) := by
        rw [← hrest]
        exact (hsplit f).append_left _
    _ |>.Perm (f k ++ (g k ++ (keys.erase k).flatMap g)) := by
        rw [← append_assoc, ← append_assoc]
        exact perm_append_comm.append_right _
    _ |>.Perm (f k ++ keys.flatMap g) := (hsplit g).symm.append_left _

theorem map_exchange (f : κ → α) (x : α) :
    (x :: keys.map f).Perm (f k :: keys.map (update f k x)) := by
  have h := flatMap_exchange hnodup hk (f := fun j => [f j])
    (g := fun j => [update f k x j])
    (fun j hj => by rw [update_of_ne hj])
  rw [update_self, ← map_eq_flatMap, ← map_eq_flatMap] at h
  exact h

/-- Who holds what, with a pool: a change of one holder that is a permutation together with
the pool is one of the whole. -/
theorem pool_exchange {f g : κ → List α} {pool pool' : List α} (hfg : ∀ j, j ≠ k → f j = g j)
    (h : (pool' ++ g k).Perm (pool ++ f k)) :
    (pool' ++ keys.flatMap g).Perm (pool ++ keys.flatMap f) := by
  have hex := flatMap_exchange hnodup hk hfg
  refine (perm_append_left_iff (f k)).mp ?_
  calc f k ++ (pool' ++ keys.flatMap g)
    _ |>.Perm (pool' ++ (f k ++ keys.flatMap g)) := by
        rw [← append_assoc, ← append_assoc]
        exact perm_append_comm.append_right _
    _ |>.Perm (pool' ++ (g k ++ keys.flatMap f)) := hex.symm.append_left _
    _ |>.Perm (pool ++ (f k ++ keys.flatMap f)) := by
        rw [← append_assoc, ← append_assoc]
        exact h.append_right _
    _ |>.Perm (f k ++ (pool ++ keys.flatMap f)) := by
        rw [← append_assoc, ← append_assoc]
        exact perm_append_comm.append_right _

end

end Lib
