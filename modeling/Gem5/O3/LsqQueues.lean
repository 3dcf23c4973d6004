import Gem5.O3.LsqUnit

namespace Gem5.O3.LsqUnit

open Lib Function LsqUnit.DynInst

variable {cfg : LsqConfig} {u u' : LsqUnit} {last : Nat}

theorem lqEntries_pos (cfg : LsqConfig) : 0 < cfg.lqEntries := Nat.succ_pos _

theorem sqEntries_pos (cfg : LsqConfig) : 0 < cfg.sqEntries := Nat.succ_pos _

/-- The positions of the two queues, which never wrap, and the instructions at them. -/
structure Layout where
  loadHead : Nat
  loadTail : Nat
  storeHead : Nat
  storeWB : Nat
  storeTail : Nat
  loadAt : Nat → Nat
  storeAt : Nat → Nat

/-- The loads in the queue, in program order. -/
structure LoadWindow (cfg : LsqConfig) (u : LsqUnit) (last : Nat) (f : Layout) : Prop where
  head : u.loadHead = f.loadHead % cfg.lqEntries
  tail : u.loadTail = f.loadTail % cfg.lqEntries
  le : f.loadHead ≤ f.loadTail
  room : f.loadTail < f.loadHead + cfg.lqEntries
  loads : u.loads = (f.loadTail : Int) - f.loadHead
  cell : ∀ q, f.loadHead ≤ q → q < f.loadTail → u.loadQueue (q % cfg.lqEntries) = some (f.loadAt q)
  only : ∀ idx ld, u.loadQueue idx = some ld →
    ∃ q, f.loadHead ≤ q ∧ q < f.loadTail ∧ idx = q % cfg.lqEntries
  isLoad : ∀ q, f.loadHead ≤ q → q < f.loadTail → (u.insts (f.loadAt q)).isLoad = true
  lqIdx : ∀ q, f.loadHead ≤ q → q < f.loadTail → (u.insts (f.loadAt q)).lqIdx = q % cfg.lqEntries
  live : ∀ q, f.loadHead ≤ q → q < f.loadTail → (u.insts (f.loadAt q)).squashed = false
  known : ∀ q, f.loadHead ≤ q → q < f.loadTail → f.loadAt q ≤ last
  order : ∀ q q', f.loadHead ≤ q → q < q' → q' < f.loadTail → f.loadAt q < f.loadAt q'

/-- The stores in the queue, in program order. -/
structure StoreWindow (cfg : LsqConfig) (u : LsqUnit) (last : Nat) (f : Layout) : Prop where
  head : u.storeHead = f.storeHead % cfg.sqEntries
  wb : u.storeWBIdx = f.storeWB % cfg.sqEntries
  tail : u.storeTail = f.storeTail % cfg.sqEntries
  head_le : f.storeHead ≤ f.storeWB
  wb_le : f.storeWB ≤ f.storeTail
  room : f.storeTail < f.storeHead + cfg.sqEntries
  stores : u.stores = (f.storeTail : Int) - f.storeHead
  cell : ∀ p, f.storeHead ≤ p → p < f.storeTail →
    (u.storeQueue (p % cfg.sqEntries)).inst = some (f.storeAt p)
  isStore : ∀ p, f.storeHead ≤ p → p < f.storeTail → (u.insts (f.storeAt p)).isLoad = false
  sqIdx : ∀ p, f.storeHead ≤ p → p < f.storeTail →
    (u.insts (f.storeAt p)).sqIdx = some (p % cfg.sqEntries)
  live : ∀ p, f.storeHead ≤ p → p < f.storeTail → (u.insts (f.storeAt p)).squashed = false
  known : ∀ p, f.storeHead ≤ p → p < f.storeTail → f.storeAt p ≤ last
  order : ∀ p p', f.storeHead ≤ p → p < p' → p' < f.storeTail → f.storeAt p < f.storeAt p'

/-- The indices that instructions still to be executed have noted part the other queue into
what is before them and what is after them. -/
structure Indices (cfg : LsqConfig) (u : LsqUnit) (committed : Nat) (f : Layout) : Prop where
  load : ∀ q, f.loadHead ≤ q → q < f.loadTail → committed < f.loadAt q →
    ((u.insts (f.loadAt q)).sqIdx = none ∧
      ∀ p, f.storeHead ≤ p → p < f.storeTail → f.loadAt q < f.storeAt p) ∨
    ∃ p₀, f.storeHead ≤ p₀ ∧ p₀ ≤ f.storeTail ∧
      (u.insts (f.loadAt q)).sqIdx = some (p₀ % cfg.sqEntries) ∧
      ∀ p, f.storeHead ≤ p → p < f.storeTail → (f.storeAt p < f.loadAt q ↔ p < p₀)
  store : ∀ p, f.storeHead ≤ p → p < f.storeTail → committed < f.storeAt p →
    ∃ q₀, f.loadHead ≤ q₀ ∧ q₀ ≤ f.loadTail ∧ (u.insts (f.storeAt p)).lqIdx = q₀ % cfg.lqEntries ∧
      ∀ q, f.loadHead ≤ q → q < f.loadTail → (f.loadAt q < f.storeAt p ↔ q < q₀)

/-- What does not change of an instruction in the queues. -/
structure DynInst.Same (i i' : DynInst) : Prop where
  isLoad : i'.isLoad = i.isLoad
  isStoreConditional : i'.isStoreConditional = i.isStoreConditional
  isDataPrefetch : i'.isDataPrefetch = i.isDataPrefetch
  lqIdx : i'.lqIdx = i.lqIdx
  sqIdx : i'.sqIdx = i.sqIdx
  squashed : i'.squashed = i.squashed

theorem DynInst.Same.refl (i : DynInst) : Same i i := ⟨rfl, rfl, rfl, rfl, rfl, rfl⟩

theorem DynInst.Same.trans (h : Same i i') (h' : Same i' i'') :
    Same i i'' :=
  ⟨h'.isLoad.trans h.isLoad, h'.isStoreConditional.trans h.isStoreConditional,
    h'.isDataPrefetch.trans h.isDataPrefetch, h'.lqIdx.trans h.lqIdx, h'.sqIdx.trans h.sqIdx,
    h'.squashed.trans h.squashed⟩

@[simp]
theorem insts_setInst_self (u : LsqUnit) (s : Nat) (i : DynInst) : (u.setInst s i).insts s = i :=
  update_self _ _ _

@[simp]
theorem insts_setInst_of_ne (u : LsqUnit) (hne : s' ≠ s) (i : DynInst) :
    (u.setInst s i).insts s' = u.insts s' :=
  update_of_ne hne _ _

theorem same_setInst (u : LsqUnit) (h : Same (u.insts s) i)
    (s' : Nat) : Same (u.insts s') ((u.setInst s i).insts s') := by
  obtain rfl | heq := eq_or_ne s' s
  · rwa [insts_setInst_self]
  · rw [insts_setInst_of_ne u heq]
    exact .refl _

/-- The window rests on the load queue and on what stays of the loads in it. -/
theorem LoadWindow.congr {last' p : Nat} (h : LoadWindow cfg u last f) (hle : last ≤ last')
    (hsame : ∀ q, f.loadHead ≤ q → q < f.loadTail →
      Same (u.insts (f.loadAt q)) (u'.insts (f.loadAt q)))
    (hhead : u'.loadHead = u.loadHead) (htail : u'.loadTail = u.loadTail)
    (hloads : u'.loads = u.loads) (hqueue : u'.loadQueue = u.loadQueue) :
    LoadWindow cfg u' last' { f with storeTail := p, storeAt := storeAt } where
  __ := h
  head := hhead.trans h.head
  tail := htail.trans h.tail
  loads := hloads.trans h.loads
  cell q hq hq' := by
    rw [hqueue]
    exact h.cell q hq hq'
  only idx ld hld := h.only idx ld (by rwa [hqueue] at hld)
  isLoad q hq hq' := (hsame q hq hq').isLoad.trans (h.isLoad q hq hq')
  lqIdx q hq hq' := (hsame q hq hq').lqIdx.trans (h.lqIdx q hq hq')
  live q hq hq' := (hsame q hq hq').squashed.trans (h.live q hq hq')
  known q hq hq' := (h.known q hq hq').trans hle

theorem StoreWindow.congr (h : StoreWindow cfg u last f)
    (hhead : u'.storeHead = u.storeHead) (hwb : u'.storeWBIdx = u.storeWBIdx)
    (htail : u'.storeTail = u.storeTail) (hstores : u'.stores = u.stores)
    (hqueue : ∀ idx, (u'.storeQueue idx).inst = (u.storeQueue idx).inst)
    (hsame : ∀ p, f.storeHead ≤ p → p < f.storeTail →
      Same (u.insts (f.storeAt p)) (u'.insts (f.storeAt p))) : StoreWindow cfg u' last f where
  __ := h
  head := hhead.trans h.head
  wb := hwb.trans h.wb
  tail := htail.trans h.tail
  stores := hstores.trans h.stores
  cell p hp hp' := (hqueue _).trans (h.cell p hp hp')
  isStore p hp hp' := (hsame p hp hp').isLoad.trans (h.isStore p hp hp')
  sqIdx p hp hp' := (hsame p hp hp').sqIdx.trans (h.sqIdx p hp hp')
  live p hp hp' := (hsame p hp hp').squashed.trans (h.live p hp hp')

theorem Indices.congr {committed : Nat} (h : Indices cfg u committed f)
    (hle : committed ≤ committed')
    (hsame : ∀ s, Same (u.insts s) (u'.insts s)) : Indices cfg u' committed' f where
  load q hq hq' hlt := by
    rw [(hsame _).sqIdx]
    exact h.load q hq hq' (hle.trans_lt hlt)
  store p hp hp' hlt := by
    rw [(hsame _).lqIdx]
    exact h.store p hp hp' (hle.trans_lt hlt)

/-! Operations that leave the queues and the stores alone. -/

/-- Only loads change, and what the unit keeps for them. -/
structure StoreSide (u u' : LsqUnit) : Prop where
  stores : ∀ s, (u.insts s).isLoad = false → u'.insts s = u.insts s
  isLoad : ∀ s, (u'.insts s).isLoad = (u.insts s).isLoad
  frame : u' = { u with
    insts := u'.insts
    loadQueue := u'.loadQueue
    loads := u'.loads
    loadHead := u'.loadHead
    loadTail := u'.loadTail
    usedPorts := u'.usedPorts
    stalled := u'.stalled
    stallingStoreIsn := u'.stallingStoreIsn
    stallingLoadIdx := u'.stallingLoadIdx
    memDepViolator := u'.memDepViolator
    violatedBy := u'.violatedBy }

structure LoadOnly (u u' : LsqUnit) : Prop extends StoreSide u u' where
  same : ∀ s, DynInst.Same (u.insts s) (u'.insts s)
  loadQueue : u'.loadQueue = u.loadQueue
  loads : u'.loads = u.loads
  loadHead : u'.loadHead = u.loadHead
  loadTail : u'.loadTail = u.loadTail

namespace StoreSide

variable {u'' : LsqUnit}

theorem refl (u : LsqUnit) : StoreSide u u :=
  ⟨fun _ _ => rfl, fun _ => rfl, rfl⟩

theorem trans (h : StoreSide u u') (h' : StoreSide u' u'') : StoreSide u u'' where
  stores s hs := (h'.stores s (by rw [h.isLoad, hs])).trans (h.stores s hs)
  isLoad s := (h'.isLoad s).trans (h.isLoad s)
  frame := h'.frame.trans (by rw [h.frame])

theorem storeWindow (h : StoreSide u u') (hw : StoreWindow cfg u last f) :
    StoreWindow cfg u' last f := by
  refine hw.congr ?_ ?_ ?_ ?_ (fun _ => ?_) (fun p hp hp' => ?_)
  iterate 5 (rw [h.frame])
  rw [h.stores _ (hw.isStore p hp hp')]
  exact .refl _

end StoreSide

namespace LoadOnly

variable {u'' : LsqUnit}

theorem refl (u : LsqUnit) : LoadOnly u u :=
  ⟨.refl u, fun _ => .refl _, rfl, rfl, rfl, rfl⟩

theorem trans (h : LoadOnly u u') (h' : LoadOnly u' u'') : LoadOnly u u'' :=
  ⟨h.toStoreSide.trans h'.toStoreSide, fun s => (h.same s).trans (h'.same s),
    h'.loadQueue.trans h.loadQueue, h'.loads.trans h.loads, h'.loadHead.trans h.loadHead,
    h'.loadTail.trans h.loadTail⟩

theorem setInst (u : LsqUnit) (hload : (u.insts s).isLoad = true)
    (h : Same (u.insts s) i) : LoadOnly u (u.setInst s i) := by
  refine { LoadOnly.refl u with
    frame := rfl
    same := same_setInst u h
    isLoad := fun s' => (same_setInst u h s').isLoad
    stores := fun s' hs' => ?_ }
  refine insts_setInst_of_ne u (fun heq => ?_) i
  rw [heq, hload] at hs'
  cases hs'

theorem loadWindow (h : LoadOnly u u') (hw : LoadWindow cfg u last f) : LoadWindow cfg u' last f :=
  hw.congr le_rfl (fun _ _ _ => h.same _) h.loadHead h.loadTail h.loads h.loadQueue

end LoadOnly

/-- Only loads change, and the violator stays. -/
def Quiet (u u' : LsqUnit) : Prop :=
  LoadOnly u u' ∧ u'.memDepViolator = u.memDepViolator ∧ u'.violatedBy = u.violatedBy

theorem Quiet.refl (u : LsqUnit) : Quiet u u := ⟨.refl u, rfl, rfl⟩

theorem Quiet.trans (h : Quiet u u') (h' : Quiet u' u'') : Quiet u u'' :=
  ⟨h.1.trans h'.1, h'.2.1.trans h.2.1, h'.2.2.trans h.2.2⟩

/-- The loop of `checkSnoop`, from a position between the head and the tail. -/
theorem snoopLoop_quiet (addr fuel : Nat) :
    ∀ (q : Nat) (forceSquash : Bool) (u : LsqUnit), LoadWindow cfg u last f → f.loadHead ≤ q →
      q ≤ f.loadTail → f.loadTail < q + fuel →
      Yields (snoopLoop cfg addr fuel (q % cfg.lqEntries) forceSquash u)
        (Quiet u) := by
  induction fuel with
  | zero =>
    intro q _ u _ _ hle hlt
    omega
  | succ fuel ih =>
    intro q forceSquash u hw hhead hle hlt
    unfold snoopLoop
    split_ifs with hne
    · exact .ok (.refl u)
    have hq : q < f.loadTail := by
      rcases lt_or_ge q f.loadTail with h | h
      · exact h
      · rw [hw.tail, show q = f.loadTail by omega] at hne
        exact absurd rfl hne
    rw [hw.cell q hhead hq, Ring.next_mod (lqEntries_pos cfg)]
    have hnext : ∀ (forceSquash : Bool) (u' : LsqUnit), Quiet u u' →
        Yields (snoopLoop cfg addr fuel ((q + 1) % cfg.lqEntries) forceSquash u') (Quiet u) :=
          fun forceSquash u' hu' =>
      (ih (q + 1) forceSquash u' (hu'.1.loadWindow hw) (by omega) hq (by omega)).mono
        (fun v hv => hu'.trans hv)
    dsimp only
    split
    · exact hnext _ u (.refl u)
    split
    · refine hnext _ _ ?_
      split
      · exact .refl u
      · exact ⟨.setInst u (hw.isLoad q hhead hq) ⟨rfl, rfl, rfl, rfl, rfl, rfl⟩, rfl, rfl⟩
    · exact hnext _ u (.refl u)

theorem checkSnoop_quiet (hw : LoadWindow cfg u last f) (addr : Nat) :
    Yields (checkSnoop cfg addr u) (Quiet u) := by
  unfold checkSnoop
  split_ifs with hne
  · exact .ok (.refl u)
  have hlt : f.loadHead < f.loadTail := by
    have := hw.le
    rcases lt_or_ge f.loadHead f.loadTail with h | h
    · exact h
    · rw [hw.head, hw.tail, show f.loadHead = f.loadTail by omega] at hne
      exact absurd rfl hne
  have := hw.room
  rw [hw.head, Ring.next_mod (lqEntries_pos cfg)]
  exact snoopLoop_quiet _ _ _ _ u hw (by omega) (by omega) (by omega)

def Overlap (i i' : DynInst) : Prop :=
  ∃ a, (i.effAddr ≤ a ∧ a < i.effAddr + i.effSize) ∧ i'.effAddr ≤ a ∧ a < i'.effAddr + i'.effSize

/-- The dependence check is on blocks, so it sees every byte in common. -/
theorem Overlap.conflict (h : Overlap i i') : conflict cfg i i' = true := by
  obtain ⟨a, ⟨h1, h2⟩, h3, h4⟩ := h
  unfold LsqUnit.conflict
  simp only [ge_iff_le, Bool.and_eq_true, decide_eq_true_eq, Nat.shiftRight_eq_div_pow]
  exact ⟨Nat.div_le_div_right (by omega), Nat.div_le_div_right (by omega)⟩

def Suspect (u : LsqUnit) (seqNum ld : Nat) : Prop :=
  (u.insts ld).effAddrValid = true ∧ (u.insts ld).strictlyOrdered = false ∧
    Overlap (u.insts seqNum) (u.insts ld)

/-- What a check of the loads from position `q` on leaves as the violator. -/
structure Checked (u u' : LsqUnit) (f : Layout) (seqNum q : Nat) : Prop where
  only : LoadOnly u u'
  insts : (u.insts seqNum).isLoad = false → u'.insts = u.insts
  violator : (u'.memDepViolator = u.memDepViolator ∧ u'.violatedBy = u.violatedBy) ∨
    ∃ q', q ≤ q' ∧ q' < f.loadTail ∧ u'.memDepViolator = some (f.loadAt q') ∧ u'.violatedBy = seqNum
  found : (u.insts seqNum).isLoad = false → ∀ q', q ≤ q' → q' < f.loadTail →
    Suspect u seqNum (f.loadAt q') → ∃ v, u'.memDepViolator = some v ∧ v ≤ f.loadAt q'

theorem Checked.stop {last seqNum q : Nat} (hw : LoadWindow cfg u last f)
    (hhead : f.loadHead ≤ q) (hq : q < f.loadTail) (hv : v ≤ f.loadAt q)
    (hu' : LoadOnly u u') (hinsts : u'.insts = u.insts) (hviolator : u'.memDepViolator = some v)
    (hset : (u'.memDepViolator = u.memDepViolator ∧ u'.violatedBy = u.violatedBy) ∨
      v = f.loadAt q ∧ u'.violatedBy = seqNum) : Checked u u' f seqNum q where
  only := hu'
  insts _ := hinsts
  violator := by
    rcases hset with h | h
    · exact .inl h
    · exact .inr ⟨q, Nat.le_refl q, hq, h.1 ▸ hviolator, h.2⟩
  found _ q' hle hlt _ := by
    refine ⟨v, hviolator, hv.trans ?_⟩
    rcases Nat.eq_or_lt_of_le hle with rfl | hlt'
    · exact le_rfl
    · exact (hw.order q q' hhead hlt' hlt).le

theorem Checked.pass (hu : LoadOnly u u')
    (hviolator : u'.memDepViolator = u.memDepViolator ∧ u'.violatedBy = u.violatedBy)
    (hstore : (u.insts seqNum).isLoad = false → u' = u)
    (hnot : (u.insts seqNum).isLoad = false → ¬Suspect u seqNum (f.loadAt q))
    (h : Checked u' v f seqNum (q + 1)) : Checked u v f seqNum q where
  only := hu.trans h.only
  insts hs := by
    have heq := hstore hs
    subst heq
    exact h.insts hs
  violator := by
    rcases h.violator with hkeep | ⟨q', hle, hlt, hset, hby⟩
    · exact .inl ⟨hkeep.1.trans hviolator.1, hkeep.2.trans hviolator.2⟩
    · exact .inr ⟨q', by omega, hlt, hset, hby⟩
  found hs q' hle hlt hsus := by
    have heq := hstore hs
    rcases Nat.eq_or_lt_of_le hle with rfl | hlt'
    · exact absurd hsus (hnot hs)
    · subst heq
      exact h.found hs q' hlt' hlt hsus

theorem checkViolations_checked {last seqNum : Nat} (fuel : Nat) :
    ∀ (q : Nat) (u : LsqUnit), LoadWindow cfg u last f → f.loadHead ≤ q → q ≤ f.loadTail →
      f.loadTail < q + fuel →
      Yields (checkViolations cfg seqNum fuel (q % cfg.lqEntries) u)
        (fun u' => Checked u u' f seqNum q) := by
  induction fuel with
  | zero =>
    intro q u _ _ hle hlt
    omega
  | succ fuel ih =>
    intro q u hw hhead hle hlt
    unfold checkViolations
    split
    · rename_i heq
      have hend : q = f.loadTail := by
        have := hw.room
        exact Ring.mod_inj (heq.trans hw.tail) (by omega) (by omega)
      exact .ok ⟨.refl u, fun _ => rfl, .inl ⟨rfl, rfl⟩, fun _ q' hle' hlt' _ => by omega⟩
    rename_i hne
    have hq : q < f.loadTail := by
      rcases lt_or_ge q f.loadTail with h | h
      · exact h
      · rw [hw.tail, show q = f.loadTail by omega] at hne
        exact absurd rfl hne
    rw [hw.cell q hhead hq, Ring.next_mod (lqEntries_pos cfg)]
    have hnext : ¬Suspect u seqNum (f.loadAt q) →
        Yields (checkViolations cfg seqNum fuel ((q + 1) % cfg.lqEntries) u)
          (fun u' => Checked u u' f seqNum q) := fun hnot =>
      (ih (q + 1) u hw (by omega) hq (by omega)).mono
        (fun v hv => .pass (.refl u) ⟨rfl, rfl⟩ (fun _ => rfl) (fun _ => hnot) hv)
    dsimp only
    split
    · rename_i hskip
      refine hnext (fun hsus => ?_)
      rw [hsus.1, hsus.2.1] at hskip
      cases hskip
    split
    · split
      · rename_i hload
        split
        · exact .ok (.stop hw hhead hq (le_rfl) { LoadOnly.refl u with frame := rfl } rfl rfl
            (.inr ⟨rfl, rfl⟩))
        have hset : LoadOnly u (u.setInst (f.loadAt q)
            { u.insts (f.loadAt q) with possibleLoadViolation := true }) :=
          .setInst u (hw.isLoad q hhead hq) ⟨rfl, rfl, rfl, rfl, rfl, rfl⟩
        have hno : (u.insts seqNum).isLoad ≠ false := by simp [hload]
        exact (ih (q + 1) _ (hset.loadWindow hw) (by omega) hq (by omega)).mono
          (fun v hv => .pass hset ⟨rfl, rfl⟩ (fun hs => absurd hs hno)
            (fun hs => absurd hs hno) hv)
      · split_ifs with hany
        · obtain ⟨v, hv, hvlt⟩ := (Option.any_eq_true _ _).mp hany
          exact .ok (.stop hw hhead hq (of_decide_eq_true hvlt).le (.refl u) rfl hv
            (.inl ⟨rfl, rfl⟩))
        · exact .ok (.stop hw hhead hq (le_rfl) { LoadOnly.refl u with frame := rfl } rfl rfl
            (.inr ⟨rfl, rfl⟩))
    · rename_i hconflict
      exact hnext (fun hsus => hconflict hsus.2.2.conflict)

end Gem5.O3.LsqUnit
