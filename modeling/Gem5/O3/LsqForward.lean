import Gem5.O3.LsqQueues

namespace Gem5.O3.LsqUnit

open Lib

variable {cfg : LsqConfig} {u u' : LsqUnit}

section

variable (cfg : LsqConfig) (u : LsqUnit) (f : Layout)
include cfg u f

/-- The store at a position has executed and is not strictly ordered: it may have data for
younger loads. -/
def Eligible (p : Nat) : Prop :=
  (u.storeQueue (p % cfg.sqEntries)).size ≠ 0 ∧ (u.insts (f.storeAt p)).strictlyOrdered = false

/-- The entry of the store at a position covers an address. -/
def Covers (p a : Nat) : Prop :=
  (u.insts (f.storeAt p)).effAddr ≤ a ∧
    a < (u.insts (f.storeAt p)).effAddr + (u.storeQueue (p % cfg.sqEntries)).size

def Clear (req : Request) (low high : Nat) : Prop :=
  ∀ p, low ≤ p → p < high → Eligible cfg u f p →
    ∀ a, req.vaddr ≤ a → a < req.vaddr + req.size → ¬Covers cfg u f p a

end

/-- How a walk over the stores of a range ends. -/
structure Walked (cfg : LsqConfig) (u : LsqUnit) (f : Layout) (req : Request) (ld high : Nat)
    (r : ReadResult × LsqUnit) : Prop where
  only : LoadOnly u r.2
  violator : r.2.memDepViolator = u.memDepViolator ∧ r.2.violatedBy = u.violatedBy
  noFault : r.1 ≠ .fault
  forwarded : r.1 = .forwarded → ∃ p, f.storeWB ≤ p ∧ p < high ∧ Eligible cfg u f p ∧
    (∀ a, req.vaddr ≤ a → a < req.vaddr + req.size → Covers cfg u f p a) ∧
    Clear cfg u f req (p + 1) high ∧
    (r.2.insts ld).memData = some (forwardData (u.storeQueue (p % cfg.sqEntries))
      (req.vaddr - (u.insts (f.storeAt p)).effAddr) req.size)
  cache : r.1 = .sent ∨ r.1 = .blocked → Clear cfg u f req f.storeWB high

theorem accessCache_walked (hload : (u.insts ld).isLoad = true) (env : ReadEnv)
    (hend : high ≤ f.storeWB) :
    Walked cfg u f req ld high (accessCache cfg req ld env u) := by
  have hset : LoadOnly u (u.setInst ld { u.insts ld with
      memData := some ((u.insts ld).memData.getD (List.replicate req.size 0)) }) :=
    .setInst u hload ⟨rfl, rfl, rfl, rfl, rfl, rfl⟩
  have hclear : Clear cfg u f req f.storeWB high := fun p hp hp' => by omega
  unfold accessCache
  dsimp only
  split
  · exact ⟨{ hset with frame := rfl }, ⟨rfl, rfl⟩, by simp, by simp, fun _ => hclear⟩
  · split
    · refine ⟨{ hset with frame := rfl }, ⟨rfl, rfl⟩, ?_, ?_, fun _ => hclear⟩ <;> dsimp only <;>
        split <;> simp
    · exact ⟨{ hset with frame := rfl }, ⟨rfl, rfl⟩, by simp, by simp, fun _ => hclear⟩

theorem Walked.pass (h : Walked cfg u f req ld p r)
    (hnot : Eligible cfg u f p → ∀ a, req.vaddr ≤ a → a < req.vaddr + req.size →
      ¬Covers cfg u f p a) : Walked cfg u f req ld (p + 1) r := by
  have hclear : ∀ low, Clear cfg u f req low p → Clear cfg u f req low (p + 1) := by
    intro low hc p' hlow hlt
    rcases Nat.lt_succ_iff_lt_or_eq.mp hlt with hlt | rfl
    · exact hc p' hlow hlt
    · exact hnot
  refine ⟨h.only, h.violator, h.noFault, fun hf => ?_, fun hc => hclear _ (h.cache hc)⟩
  obtain ⟨p', hlow, hlt, hel, hall, hc, hdata⟩ := h.forwarded hf
  exact ⟨p', hlow, hlt.trans (Nat.lt_succ_self p), hel, hall, hclear _ hc, hdata⟩

/-- The walk of `read` over the stores before a load, from the youngest on. -/
theorem forwardLoop_walked {last : Nat} (hw : StoreWindow cfg u last f)
    (hvalid : ∀ p, f.storeWB ≤ p → p < f.storeTail →
      (u.storeQueue (p % cfg.sqEntries)).size ≠ 0 → (u.insts (f.storeAt p)).effAddrValid = true)
    (hopen : ∀ p, f.storeWB ≤ p → p < f.storeTail →
      (u.storeQueue (p % cfg.sqEntries)).completed = false) (hload : (u.insts ld).isLoad = true)
    (fuel : Nat) : ∀ high, f.storeWB ≤ high → high ≤ f.storeTail → high < f.storeWB + fuel →
      Meets (forwardLoop cfg req ld loadIdx env fuel (high % cfg.sqEntries) u)
        (· = .noStallingLoad) (Walked cfg u f req ld high) := by
  induction fuel with
  | zero =>
    intro high hlow _ hlt
    omega
  | succ fuel ih =>
    intro high hlow htail hlt
    have hroom := hw.room
    have hhead := hw.head_le
    unfold forwardLoop
    split
    · rename_i heq
      have hend : high = f.storeWB := Ring.mod_inj (heq.trans hw.wb) (by omega) (by omega)
      exact .ok (accessCache_walked hload env hend.le)
    rename_i hne
    have hgt : f.storeWB < high := by
      rcases Nat.eq_or_lt_of_le hlow with h | h
      · rw [← h, hw.wb] at hne
        exact absurd rfl hne
      · exact h
    obtain ⟨p, rfl⟩ : ∃ p, high = p + 1 := ⟨high - 1, by omega⟩
    have hp : f.storeWB ≤ p := by omega
    rw [Ring.prev_mod (sqEntries_pos cfg)]
    dsimp only
    rw [hw.cell p (by omega) (by omega)]
    have hnext := ih p hp (by omega) (by omega)
    dsimp only
    split
    · rename_i hzero
      exact hnext.mono (fun r hr => hr.pass (fun hel => absurd hzero hel.1))
    rename_i hsize
    split
    · rename_i hstrict
      exact hnext.mono (fun r hr => hr.pass (fun hel => by rw [hel.2] at hstrict; cases hstrict))
    rename_i hstrict
    have hel : Eligible cfg u f p := ⟨hsize, by simpa using hstrict⟩
    rw [hvalid p hp (by omega) hsize]
    rw [if_neg (by simp)]
    split
    · -- the store has all bytes of the load
      rename_i hfull
      simp only [ge_iff_le, Bool.and_eq_true, decide_eq_true_eq] at hfull
      refine .ok ⟨.setInst u hload ⟨rfl, rfl, rfl, rfl, rfl, rfl⟩, ⟨rfl, rfl⟩, by simp,
        fun _ => ⟨p, hp, Nat.lt_succ_self p, hel, fun a ha ha' => ?_, fun p' h1 h2 => by omega,
          ?_⟩, by simp⟩
      · unfold Covers
        omega
      · dsimp only
        rw [insts_setInst_self]
    split
    · -- it has some of them
      rw [hopen p hp (by omega)]
      rw [if_neg (by simp)]
      split
      · exact .ok ⟨{ LoadOnly.refl u with frame := rfl }, ⟨rfl, rfl⟩, by simp, by simp, by simp⟩
      · split
        · exact .error rfl
        · split
          · exact .ok ⟨{ LoadOnly.refl u with frame := rfl }, ⟨rfl, rfl⟩, by simp, by simp, by simp⟩
          · exact .ok ⟨.refl u, ⟨rfl, rfl⟩, by simp, by simp, by simp⟩
    · rename_i hpart
      refine hnext.mono (fun r hr => hr.pass (fun _ a ha ha' hcov => hpart ?_))
      unfold Covers at hcov
      simp only [gt_iff_lt, ge_iff_le, Bool.or_eq_true, Bool.and_eq_true, decide_eq_true_eq]
      omega

end Gem5.O3.LsqUnit
