import Gem5.O3.LsqInsert

namespace Gem5.O3.LsqUnit

open Lib List Function

variable {cfg : LsqConfig} {u u' : LsqUnit} {h h' : History} {f f' : Layout}
  {part : List StorePacket}

/-! Committing loads. -/

theorem LoadWindow.drop {last q : Nat} (hw : LoadWindow cfg u last f) (hq : f.loadHead ≤ q)
    (hq' : q < f.loadTail) (hrange : ∀ q', f'.loadHead ≤ q' ∧ q' < f'.loadTail ↔
      (f.loadHead ≤ q' ∧ q' < f.loadTail) ∧ q' ≠ q)
    (hat : f'.loadAt = f.loadAt) (hle : f'.loadHead ≤ f'.loadTail)
    (hroom : f'.loadTail < f'.loadHead + cfg.lqEntries)
    (hhead : u'.loadHead = f'.loadHead % cfg.lqEntries)
    (htail : u'.loadTail = f'.loadTail % cfg.lqEntries)
    (hloads : u'.loads = (f'.loadTail : Int) - f'.loadHead)
    (hqueue : u'.loadQueue = update u.loadQueue (q % cfg.lqEntries) none)
    (hinsts : ∀ q', f.loadHead ≤ q' → q' < f.loadTail → q' ≠ q →
      u'.insts (f.loadAt q') = u.insts (f.loadAt q')) : LoadWindow cfg u' last f' := by
  have hold : ∀ q', f'.loadHead ≤ q' → q' < f'.loadTail → f.loadHead ≤ q' ∧ q' < f.loadTail ∧
      q' ≠ q ∧ u'.insts (f.loadAt q') = u.insts (f.loadAt q') := by
    intro q' h1 h2
    obtain ⟨⟨h3, h4⟩, hne⟩ := (hrange q').mp ⟨h1, h2⟩
    exact ⟨h3, h4, hne, hinsts q' h3 h4 hne⟩
  refine ⟨hhead, htail, hle, hroom, hloads, fun q' h1 h2 => ?_, fun idx ld hld => ?_,
    fun q' h1 h2 => ?_, fun q' h1 h2 => ?_, fun q' h1 h2 => ?_, fun q' h1 h2 => ?_,
    fun q₁ q₂ h1 h2 h3 => ?_⟩
  · obtain ⟨h3, h4, hne, -⟩ := hold q' h1 h2
    have := hw.room
    rw [hat, hqueue, Ring.update_of_ne hne (by omega) (by omega)]
    exact hw.cell q' h3 h4
  · rw [hqueue] at hld
    by_cases heq : idx = q % cfg.lqEntries
    · rw [heq, update_self] at hld
      cases hld
    · rw [update_of_ne heq] at hld
      obtain ⟨q', h1, h2, h3⟩ := hw.only idx ld hld
      obtain ⟨h4, h5⟩ := (hrange q').mpr ⟨⟨h1, h2⟩, fun hqq => heq (by rw [h3, hqq])⟩
      exact ⟨q', h4, h5, h3⟩
  · obtain ⟨h3, h4, -, hinst⟩ := hold q' h1 h2
    rw [hat, hinst]
    exact hw.isLoad q' h3 h4
  · obtain ⟨h3, h4, -, hinst⟩ := hold q' h1 h2
    rw [hat, hinst]
    exact hw.lqIdx q' h3 h4
  · obtain ⟨h3, h4, -, hinst⟩ := hold q' h1 h2
    rw [hat, hinst]
    exact hw.live q' h3 h4
  · obtain ⟨h3, h4, -⟩ := hold q' h1 h2
    rw [hat]
    exact hw.known q' h3 h4
  · rw [hat]
    exact hw.order q₁ q₂ (hold q₁ h1 (h2.trans h3)).1 h2 (hold q₂ (h1.trans h2.le) h3).2.1

theorem commitLoad_inv (hi : Inv cfg u h f part) (hlt : f.loadHead < f.loadTail)
    (hle : f.loadAt f.loadHead ≤ h.committedNum) :
    Yields (commitLoad cfg u) (fun u' =>
      Inv cfg u' h { f with loadHead := f.loadHead + 1 } part ∧ u'.insts = u.insts ∧
        u'.memDepViolator = u.memDepViolator ∧ u'.violatedBy = u.violatedBy) := by
  have hw := hi.loads
  have hroom := hw.room
  unfold commitLoad
  rw [if_neg (by rw [hw.head, hw.cell _ (le_rfl) hlt]; simp)]
  refine .ok ⟨?_, rfl, rfl, rfl⟩
  have hside : StoreSide u { u.setLoad u.loadHead none with
      loadHead := Ring.next cfg.lqEntries (u.setLoad u.loadHead none).loadHead
      loads := (u.setLoad u.loadHead none).loads - 1 } := { StoreSide.refl u with frame := rfl }
  refine ⟨hside.core hi.toCore (le_rfl) (hw.drop (le_rfl) hlt (fun q' => ?_) rfl hlt ?_
    ?_ hw.tail ?_ ?_ (fun _ _ _ _ => rfl)),
    ⟨fun q h1 h2 hc => hi.indices.load q (Nat.le_of_succ_le h1) h2 hc, fun p h1 h2 hc => ?_⟩⟩
  · dsimp only
    omega
  · dsimp only
    omega
  · change Ring.next cfg.lqEntries u.loadHead = (f.loadHead + 1) % cfg.lqEntries
    rw [hw.head, Ring.next_mod (lqEntries_pos cfg)]
  · change u.loads - 1 = (f.loadTail : Int) - ((f.loadHead + 1 : Nat) : Int)
    rw [hw.loads]
    push_cast
    ring
  · rw [← hw.head]
    rfl
  · -- a load that commits is before the stores still to be executed
    obtain ⟨q₀, hq, hq', hidx, hiff⟩ := hi.indices.store p h1 h2 hc
    have hbefore := (hiff f.loadHead (le_rfl) hlt).mp (hle.trans_lt hc)
    exact ⟨q₀, hbefore, hq', hidx, fun q h3 h4 => hiff q (Nat.le_of_succ_le h3) h4⟩

theorem commitLoads_inv (hle : youngest ≤ h.committedNum) (fuel : Nat) :
    ∀ (u : LsqUnit) (f : Layout), Inv cfg u h f part → f.loadTail < f.loadHead + fuel →
      Yields (commitLoads cfg youngest fuel u) (fun u' =>
        (∃ head, Inv cfg u' h { f with loadHead := head } part) ∧ u'.insts = u.insts ∧
          u'.memDepViolator = u.memDepViolator ∧ u'.violatedBy = u.violatedBy) := by
  induction fuel with
  | zero =>
    intro u f hi hlt
    have := hi.loads.le
    omega
  | succ fuel ih =>
    intro u f hi hfuel
    have hw := hi.loads
    unfold commitLoads
    split_ifs with hne
    · exact .ok ⟨⟨f.loadHead, hi⟩, rfl, rfl, rfl⟩
    have hlt : f.loadHead < f.loadTail := by
      have := hw.loads
      have := hw.le
      omega
    rw [hw.head, hw.cell _ (le_rfl) hlt]
    dsimp only
    split_ifs with hyoung
    · refine (commitLoad_inv hi hlt (hyoung.trans hle)).bind (fun u₁ hu₁ => ?_)
      refine (ih u₁ _ hu₁.1 (by dsimp only; omega)).mono (fun u' hu' => ?_)
      exact ⟨hu'.1, hu'.2.1.trans hu₁.2.1, hu'.2.2.1.trans hu₁.2.2.1, hu'.2.2.2.trans hu₁.2.2.2⟩
    · exact .ok ⟨⟨f.loadHead, hi⟩, rfl, rfl, rfl⟩

/-! Squashing loads. -/

/-- What a loop of `squash` leaves of the instructions and the violator. -/
structure Squashed (u u' : LsqUnit) (squashedNum : Nat) : Prop where
  insts : ∀ s, s ≤ squashedNum → u'.insts s = u.insts s
  violator : u'.memDepViolator = u.memDepViolator
  violatedBy : u'.violatedBy = u.violatedBy
  prefetch : ∀ s, (u'.insts s).isDataPrefetch = (u.insts s).isDataPrefetch
  stays : ∀ s, (u.insts s).squashed = true → (u'.insts s).squashed = true

theorem Squashed.refl (u : LsqUnit) (squashedNum : Nat) : Squashed u u squashedNum :=
  ⟨fun _ _ => rfl, rfl, rfl, fun _ => rfl, fun _ hs => hs⟩

theorem Squashed.trans (hs : Squashed u u' squashedNum)
    (hs' : Squashed u' u'' squashedNum) : Squashed u u'' squashedNum :=
  ⟨fun s hle => (hs'.insts s hle).trans (hs.insts s hle), hs'.violator.trans hs.violator,
    hs'.violatedBy.trans hs.violatedBy, fun s => (hs'.prefetch s).trans (hs.prefetch s),
    fun s hq => hs'.stays s (hs.stays s hq)⟩

/-- One round of a loop marks an instruction that is squashed. -/
theorem Squashed.of_update (hlt : squashedNum < st)
    (hinsts : u'.insts = update u.insts st { u.insts st with squashed := true })
    (hviolator : u'.memDepViolator = u.memDepViolator) (hby : u'.violatedBy = u.violatedBy) :
    Squashed u u' squashedNum := by
  have hother : ∀ s, s ≠ st → u'.insts s = u.insts s :=
    fun s hs => by rw [hinsts, update_of_ne hs]
  have hself : u'.insts st = { u.insts st with squashed := true } := by rw [hinsts, update_self]
  refine ⟨fun s hs => hother s (by omega), hviolator, hby, fun s => ?_, fun s hs => ?_⟩
  · obtain rfl | hne := eq_or_ne s st
    · rw [hself]
    · rw [hother s hne]
  · obtain rfl | hne := eq_or_ne s st
    · rw [hself]
    · rwa [hother s hne]

theorem insts_squashLoad (loadIdx ld : Nat) (u : LsqUnit) : (u.squashLoad loadIdx ld).insts =
    update u.insts ld { u.insts ld with squashed := true } := by
  unfold squashLoad
  split <;> rfl

/-- The youngest load is squashed. -/
theorem popLoad_core (hc : Core cfg u h f part) (hq : f.loadHead ≤ q)
    (htail : f.loadTail = q + 1) :
    Core cfg (u.squashLoad (q % cfg.lqEntries) (f.loadAt q)) h { f with loadTail := q } part ∧
      StoreSide u (u.squashLoad (q % cfg.lqEntries) (f.loadAt q)) := by
  have hw := hc.loads
  have hroom := hw.room
  have hload := hw.isLoad q hq (by omega)
  have hinsts := insts_squashLoad (q % cfg.lqEntries) (f.loadAt q) u
  have hside : StoreSide u (u.squashLoad (q % cfg.lqEntries) (f.loadAt q)) := by
    refine ⟨fun s hs => ?_, fun s => ?_, by unfold squashLoad; split <;> rfl⟩
    · rw [hinsts, update_of_ne (fun heq => ?_)]
      rw [heq, hload] at hs
      cases hs
    · rw [hinsts]
      obtain rfl | hne := eq_or_ne s (f.loadAt q)
      · rw [update_self]
      · rw [update_of_ne hne]
  refine ⟨hside.core hc le_rfl (hw.drop hq (by omega) (fun q' => ?_) rfl hq ?_
    (Eq.trans ?_ hw.head) rfl ?_ ?_ (fun q' h1 h2 hne => ?_)), hside⟩
  · dsimp only
    omega
  · dsimp only
    omega
  · unfold squashLoad
    split <;> rfl
  · have hloads : (u.squashLoad (q % cfg.lqEntries) (f.loadAt q)).loads = u.loads - 1 := by
      unfold squashLoad
      split <;> rfl
    rw [hloads, hw.loads, htail]
    push_cast
    ring
  · unfold squashLoad
    split <;> rfl
  · rw [hinsts, update_of_ne (hw.order q' q h1 (by omega) (by omega)).ne]

def LoadsSquashed (cfg : LsqConfig) (u : LsqUnit) (h : History) (f : Layout)
    (part : List StorePacket) (squashedNum : Nat) (u' : LsqUnit) : Prop :=
  ∃ tail, Core cfg u' h { f with loadTail := tail } part ∧ tail ≤ f.loadTail ∧
    (∀ q, tail ≤ q → q < f.loadTail → squashedNum < f.loadAt q) ∧
    (∀ q, f.loadHead ≤ q → q < tail → f.loadAt q ≤ squashedNum) ∧ StoreSide u u' ∧
    Squashed u u' squashedNum

theorem squashLoads_core (fuel : Nat) :
    ∀ (u : LsqUnit) (f : Layout), Core cfg u h f part → f.loadTail < f.loadHead + fuel →
      Yields (squashLoads cfg squashedNum fuel (Ring.prev cfg.lqEntries u.loadTail) u)
        (LoadsSquashed cfg u h f part squashedNum) := by
  induction fuel with
  | zero =>
    intro u f hc hlt
    have := hc.loads.le
    omega
  | succ fuel ih =>
    intro u f hc hfuel
    have hw := hc.loads
    have hstop : (∀ q, f.loadHead ≤ q → q < f.loadTail → f.loadAt q ≤ squashedNum) →
        LoadsSquashed cfg u h f part squashedNum u := fun hold =>
      ⟨f.loadTail, hc, le_rfl, fun q h1 h2 => absurd h1 (by omega), hold, .refl u, .refl u _⟩
    unfold squashLoads
    split_ifs with hzero
    · have := hw.loads
      refine .ok (hstop (fun q h1 h2 => ?_))
      omega
    have hloads := hw.loads
    have hle := hw.le
    obtain ⟨q, htail⟩ : ∃ q, f.loadTail = q + 1 := ⟨f.loadTail - 1, by omega⟩
    have hq : f.loadHead ≤ q := by omega
    rw [hw.tail, htail, Ring.prev_mod (lqEntries_pos cfg), hw.cell q hq (by omega)]
    dsimp only
    split_ifs with hlt
    · obtain ⟨hpop, hside⟩ := popLoad_core hc hq htail
      have hround : Squashed u (u.squashLoad (q % cfg.lqEntries) (f.loadAt q)) squashedNum := by
        refine .of_update hlt (insts_squashLoad _ _ u) ?_ ?_ <;> unfold squashLoad <;> split <;> rfl
      refine (ih _ _ hpop (by dsimp only; omega)).mono
        (fun u' ⟨tail, hc', hle', hgt, hold, hs', hsq⟩ =>
          ⟨tail, hc', htail ▸ hle'.trans (Nat.le_succ _), fun q' h1 h2 => ?_, hold,
            hside.trans hs', hround.trans hsq⟩)
      rcases Nat.lt_succ_iff_lt_or_eq.mp (htail ▸ h2) with h2 | rfl
      · exact hgt q' h1 h2
      · exact hlt
    · refine .ok (hstop (fun q' h1 h2 => ?_))
      rcases Nat.lt_succ_iff_lt_or_eq.mp (htail ▸ h2) with h2 | rfl
      · have := hw.order q' q h1 h2 (by omega)
        omega
      · omega

/-! Squashing stores. -/

theorem liveStores_pop (hp : f.storeWB ≤ p) (htail : f.storeTail = p + 1) :
    liveStores f = liveStores { f with storeTail := p } ++ [f.storeAt p] := by
  unfold liveStores
  rw [htail, show p + 1 - f.storeWB = (p - f.storeWB) + 1 by omega, range'_concat,
    map_append, map_singleton, show f.storeWB + 1 * (p - f.storeWB) = p by omega]

theorem insts_squashStore_self (storeIdx st : Nat) (u : LsqUnit) :
    (u.squashStore storeIdx st).insts st = { u.insts st with squashed := true } :=
  update_self _ _ _

theorem insts_squashStore_of_ne (storeIdx : Nat) (hne : s ≠ st) (u : LsqUnit) :
    (u.squashStore storeIdx st).insts s = u.insts s :=
  update_of_ne hne _ _

/-- The youngest store is squashed, which may not be written back. -/
theorem popStore_core (hc : Core cfg u h f part) (hp : f.storeWB ≤ p)
    (htail : f.storeTail = p + 1) (hcan : (u.storeQueue (p % cfg.sqEntries)).canWB = false) :
    Core cfg (u.squashStore (p % cfg.sqEntries) (f.storeAt p))
      { h with program := advanced u.log ++ liveStores { f with storeTail := p } }
      { f with storeTail := p } part := by
  have hw := hc.stores
  have ho := hc.order
  have he := hc.entries
  have hwb := hw.head_le
  have hroom := hw.room
  have hold : ∀ p', p' < p → p' < f.storeTail := fun p' hlt => by omega
  have hsplit := ho.program
  rw [liveStores_pop hp htail, ← append_assoc] at hsplit
  have hsub : ∀ s, s ∈ advanced u.log ++ liveStores { f with storeTail := p } → s ∈ h.program := by
    intro s hs
    rw [hsplit]
    exact mem_append_left _ hs
  have hsorted := ho.sorted
  rw [hsplit, pairwise_append] at hsorted
  have hbefore : ∀ s, s ∈ advanced u.log ++ liveStores { f with storeTail := p } →
      s ≠ f.storeAt p := fun s hs => (hsorted.2.2 s hs _ (mem_singleton_self _)).ne
  have hinsts : ∀ s, s ≠ f.storeAt p →
      (u.squashStore (p % cfg.sqEntries) (f.storeAt p)).insts s = u.insts s :=
    fun s hs => insts_squashStore_of_ne _ hs u
  have hisLoad : ∀ s, ((u.squashStore (p % cfg.sqEntries) (f.storeAt p)).insts s).isLoad =
      (u.insts s).isLoad := by
    intro s
    obtain rfl | hs := eq_or_ne s (f.storeAt p)
    · rw [insts_squashStore_self]
    · rw [hinsts s hs]
  -- what holds of a store that stays
  have hkeep : ∀ p', f.storeHead ≤ p' → p' < p →
      (u.squashStore (p % cfg.sqEntries) (f.storeAt p)).storeQueue (p' % cfg.sqEntries) =
        u.storeQueue (p' % cfg.sqEntries) ∧
      (u.squashStore (p % cfg.sqEntries) (f.storeAt p)).insts (f.storeAt p') =
        u.insts (f.storeAt p') :=
    fun p' h1 h2 => ⟨Ring.update_of_ne (by omega) (by omega) (by omega) _,
      hinsts _ (hw.order p' p h1 h2 (by omega)).ne⟩
  refine ⟨⟨hc.loads.congr le_rfl (fun q h1 h2 => ?_) rfl rfl rfl rfl,
    ⟨hw.head, hw.wb, rfl, hwb, hp, by dsimp only; omega, ?_,
      fun p' h1 h2 => by simpa only [hkeep p' h1 h2] using hw.cell p' h1 (hold p' h2),
      fun p' h1 h2 => by simpa only [hkeep p' h1 h2] using hw.isStore p' h1 (hold p' h2),
      fun p' h1 h2 => by simpa only [hkeep p' h1 h2] using hw.sqIdx p' h1 (hold p' h2),
      fun p' h1 h2 => by simpa only [hkeep p' h1 h2] using hw.live p' h1 (hold p' h2),
      fun p' h1 h2 => hw.known p' h1 (hold p' h2),
      fun p₁ p₂ h1 h2 h3 => hw.order p₁ p₂ h1 h2 (hold p₂ h3)⟩,
    ⟨hc.written.fresh, fun p' h1 h2 => by
        simpa only [hkeep p' (hwb.trans h1) h2] using hc.written.blank p' h1 (hold p' h2),
      fun p' h1 h2 => by
        simpa only [hkeep p' (hwb.trans h1) h2] using hc.written.filled p' h1 (hold p' h2)⟩,
    ⟨rfl, fun s hs => (hisLoad s).trans (ho.isStore s (hsub s hs)), fun s hs => ?_,
      fun s hs => (hisLoad s).trans (ho.fresh s hs), hsorted.1, fun s hs => ho.known s (hsub s hs),
      ho.passed, ho.sent⟩,
    ⟨fun p' h1 h2 => by simpa only [hkeep p' h1 (h2.trans_le hp)] using he.canWB p' h1 h2,
      fun p' h1 h2 => by simpa only [hkeep p' h1 h2] using he.bound p' h1 (hold p' h2),
      fun p' h1 h2 => by
        simpa only [hkeep p' (hwb.trans h1) h2] using he.waiting p' h1 (hold p' h2),
      fun p' h1 h2 => by
        simpa only [hkeep p' (hwb.trans h1.le) h2] using he.unstarted p' h1 (hold p' h2),
      fun p' h1 h2 => by
        simpa only [hkeep p' (hwb.trans h1) h2] using he.noData p' h1 (hold p' h2), ?_⟩,
    hc.service.congr ho rfl rfl (fun _ _ _ => rfl) rfl rfl rfl (fun _ _ => rfl)
      (fun p' h1 h2 => by rw [(hkeep p' h1 (h2.trans_le hp)).1])
      (fun s hs => by rw [hinsts s (hbefore s (mem_append_left _ hs))]) (fun _ _ => rfl)⟩,
    hc.inHand.congr rfl rfl rfl rfl rfl (fun hstart hlt => ?_) (fun hlt hcan' => ?_),
    fun hlt => ?_⟩
  · rw [hinsts _ (fun heq => ?_)]
    · exact .refl _
    · have hload := hc.loads.isLoad q h1 h2
      rw [heq, hw.isStore p (hwb.trans hp) (by omega)] at hload
      cases hload
  · change u.stores - 1 = (p : Int) - f.storeHead
    rw [hw.stores, htail]
    push_cast
    ring
  · rw [hinsts s (hbefore s hs)]
    exact ho.live s (hsub s hs)
  · refine he.count.trans (congrArg (fun s : Finset Nat => (s.card : Int)) ?_)
    ext p'
    unfold openStores
    rw [Finset.mem_filter, Finset.mem_filter, Finset.mem_Ico, Finset.mem_Ico]
    by_cases hr : f.storeHead ≤ p' ∧ p' < p
    · simp [hkeep p' hr.1 hr.2, hr, hold p' hr.2]
    · simp only [hr, false_and, iff_false]
      rintro ⟨⟨h1, h2⟩, hcan', -⟩
      rw [show p' = p by omega, hcan] at hcan'
      cases hcan'
  · simpa only [hkeep _ hwb hlt] using hstart (hold _ hlt)
  · have hlt' : f.storeWB < p := by
      rcases Nat.lt_or_eq_of_le hp with hlt' | heq
      · exact hlt'
      · rw [heq, hcan] at hcan'
        cases hcan'
    obtain ⟨hcell, hinst⟩ := hkeep _ hwb hlt'
    exact ⟨hlt', rfl, by rwa [hcell], packets_congr rfl (by rw [hinst]) Iff.rfl⟩
  · rw [(hkeep _ le_rfl hlt).1]
    exact hc.freed (hold _ hlt)

/-- The stores of the program that are left after a loop that only squashes. -/
theorem filter_live {program : List Nat} (hlive : ∀ s ∈ program, (u.insts s).squashed = false) :
    program.filter (fun s => !(u.insts s).squashed) = program := by
  refine filter_eq_self.mpr (fun s hs => ?_)
  rw [hlive s hs]
  rfl

def StoresSquashed (cfg : LsqConfig) (u : LsqUnit) (h : History) (f : Layout)
    (part : List StorePacket) (squashedNum : Nat) (u' : LsqUnit) : Prop :=
  ∃ tail, Core cfg u' { h with program := h.program.filter (fun s => !(u'.insts s).squashed) }
      { f with storeTail := tail } part ∧ tail ≤ f.storeTail ∧
    (∀ p, tail ≤ p → p < f.storeTail → squashedNum < f.storeAt p) ∧
    (∀ p, f.storeHead ≤ p → p < tail → h.committedNum < f.storeAt p → f.storeAt p ≤ squashedNum) ∧
    Squashed u u' squashedNum

theorem squashStores_core {squashedNum : Nat} (fuel : Nat) :
    ∀ (u : LsqUnit) (h : History) (f : Layout), Core cfg u h f part →
      f.storeTail < f.storeHead + fuel →
      Meets (squashStores cfg squashedNum fuel (Ring.prev cfg.sqEntries u.storeTail) u)
        (· = .stalledStore) (StoresSquashed cfg u h f part squashedNum) := by
  induction fuel with
  | zero =>
    intro u h f hc hlt
    have := hc.stores.head_le.trans hc.stores.wb_le
    omega
  | succ fuel ih =>
    intro u h f hc hfuel
    have hw := hc.stores
    have hle := hw.head_le.trans hw.wb_le
    have hstop : (∀ p, f.storeHead ≤ p → p < f.storeTail → h.committedNum < f.storeAt p →
          f.storeAt p ≤ squashedNum) → StoresSquashed cfg u h f part squashedNum u := by
      intro hold
      unfold StoresSquashed
      rw [filter_live hc.order.live]
      exact ⟨f.storeTail, hc, le_rfl, fun p h1 h2 => absurd h1 (by omega), hold, .refl u _⟩
    unfold squashStores
    split_ifs with hzero
    · have := hw.stores
      refine .ok (hstop (fun p h1 h2 => ?_))
      omega
    have hstores := hw.stores
    obtain ⟨p, htail⟩ : ∃ p, f.storeTail = p + 1 := ⟨f.storeTail - 1, by omega⟩
    have hp : f.storeHead ≤ p := by omega
    have hlast : ∀ p', f.storeHead ≤ p' → p' < f.storeTail → f.storeAt p' ≤ f.storeAt p := by
      intro p' h1 h2
      rcases Nat.lt_succ_iff_lt_or_eq.mp (htail ▸ h2) with h2 | rfl
      · exact (hw.order p' p h1 h2 (by omega)).le
      · exact le_rfl
    have hidx : Ring.prev cfg.sqEntries u.storeTail = p % cfg.sqEntries := by
      rw [hw.tail, htail, Ring.prev_mod (sqEntries_pos cfg)]
    rw [hidx]
    dsimp only
    rw [hw.cell p hp (by omega)]
    dsimp only
    split
    · rename_i hlt
      split
      · rename_i hcan
        -- a store that may be written back has committed, and so have those before it
        have hbound := hc.entries.bound p hp (by omega) hcan
        refine .ok (hstop (fun p' h1 h2 hc' => ?_))
        have := hlast p' h1 h2
        omega
      rename_i hcan
      have hcan : (u.storeQueue (p % cfg.sqEntries)).canWB = false := by simpa using hcan
      have hwb : f.storeWB ≤ p := by
        by_contra hgt
        rw [hc.entries.canWB p hp (not_le.mp hgt)] at hcan
        cases hcan
      split
      · exact .error rfl
      have hnext := ih _ _ _ (popStore_core hc hwb htail hcan) (by dsimp only; omega)
      have hround : Squashed u (u.squashStore (p % cfg.sqEntries) (f.storeAt p)) squashedNum :=
        .of_update hlt rfl rfl rfl
      refine hnext.mono (fun u' ⟨tail, hc', hle', hgt, hold, hsq⟩ =>
        ⟨tail, ?_, ?_, fun p' h1 h2 => ?_, hold, hround.trans hsq⟩)
      · have hfilter : h.program.filter (fun s => !(u'.insts s).squashed) =
            (advanced u.log ++ liveStores { f with storeTail := p }).filter
              (fun s => !(u'.insts s).squashed) := by
          rw [hc.order.program, liveStores_pop hwb htail, ← append_assoc,
            filter_append, filter_singleton, hsq.stays _ (by rw [insts_squashStore_self])]
          exact append_nil _
        rw [hfilter]
        exact hc'
      · dsimp only at hle'
        omega
      · rcases Nat.lt_succ_iff_lt_or_eq.mp (htail ▸ h2) with h2 | rfl
        · exact hgt p' h1 h2
        · exact hlt
    · rename_i hnot
      refine .ok (hstop (fun p' h1 h2 _ => ?_))
      have := hlast p' h1 h2
      omega

/-! Squashing both. -/

/-- The violator is forgotten if it is squashed. -/
def clearViolator (squashedNum : Nat) (u : LsqUnit) : LsqUnit :=
  if u.memDepViolator.any (squashedNum < ·) then { u with memDepViolator := none } else u

theorem clearViolator_loadOnly (squashedNum : Nat) (u : LsqUnit) :
    LoadOnly u (clearViolator squashedNum u) ∧ (clearViolator squashedNum u).insts = u.insts ∧
      (clearViolator squashedNum u).violatedBy = u.violatedBy ∧
      ∀ v, (clearViolator squashedNum u).memDepViolator = some v →
        u.memDepViolator = some v ∧ v ≤ squashedNum := by
  unfold clearViolator
  split_ifs with hnot
  · exact ⟨{ LoadOnly.refl u with frame := rfl }, rfl, rfl, nofun⟩
  · refine ⟨.refl u, rfl, rfl, fun v hv => ⟨hv, ?_⟩⟩
    rw [hv] at hnot
    simpa using hnot

theorem squash_eq (squashedNum : Nat) (u : LsqUnit) : squash cfg squashedNum u =
    squashLoads cfg squashedNum (cfg.lqEntries + 1) (Ring.prev cfg.lqEntries u.loadTail) u >>=
      fun u => squashStores cfg squashedNum (cfg.sqEntries + 1)
        (Ring.prev cfg.sqEntries (clearViolator squashedNum u).storeTail)
        (clearViolator squashedNum u) :=
  rfl

theorem squash_inv (hi : Inv cfg u h f part) (hv : ViolatorLive u h.lastSeqNum)
    (squashedNum : Nat) :
    Meets (squash cfg squashedNum u) (· = .stalledStore) (fun u' => ∃ f',
      Inv cfg u' { h with program := h.program.filter (fun s => !(u'.insts s).squashed) } f' part ∧
        ViolatorLive u' h.lastSeqNum ∧
        ∀ s, (u'.insts s).isDataPrefetch = (u.insts s).isDataPrefetch) := by
  have hroom := hi.loads.room
  have hsroom := hi.stores.room
  rw [squash_eq]
  refine ((squashLoads_core _ u f hi.toCore (by omega)).of_yields).bind
    (fun u₁ ⟨ltail, hc₁, hle₁, hgt₁, hold₁, hside₁, hsq₁⟩ => ?_)
  obtain ⟨honly, hinsts₂, hby₂, hset₂⟩ := clearViolator_loadOnly squashedNum u₁
  have hc₂ := honly.core hc₁ (le_rfl) (honly.loadWindow hc₁.loads)
  refine (squashStores_core _ (clearViolator squashedNum u₁) h { f with loadTail := ltail } hc₂
    (by dsimp only; omega)).mono (fun u' ⟨stail, hc', hle', hgt', hold', hsq'⟩ => ?_)
  dsimp only at hle' hgt' hold'
  have hinsts : ∀ s, s ≤ squashedNum → u'.insts s = u.insts s := by
    intro s hs
    rw [hsq'.insts s hs, hinsts₂, hsq₁.insts s hs]
  refine ⟨{ f with loadTail := ltail, storeTail := stail }, ⟨hc', ⟨fun q h1 h2 hc => ?_,
    fun p h1 h2 hc => ?_⟩⟩, fun v hset => ?_, fun s => ?_⟩
  · -- what is squashed is after what stays
    dsimp only at h1 h2 hc
    have hq := hold₁ q h1 h2
    dsimp only
    rw [hinsts _ hq]
    rcases hi.indices.load q h1 (by omega) hc with ⟨hnone, hafter⟩ | ⟨p₀, hp, hp', hsome, hiff⟩
    · exact .inl ⟨hnone, fun p h3 h4 => hafter p h3 (by omega)⟩
    refine .inr ⟨p₀, hp, ?_, hsome, fun p h3 h4 => hiff p h3 (by omega)⟩
    by_contra hlt
    have h3 : f.storeHead ≤ stail := hc'.stores.head_le.trans hc'.stores.wb_le
    have h4 := hgt' stail (le_rfl) (by omega)
    have h5 := (hiff stail h3 (by omega)).mpr (by omega)
    omega
  · dsimp only at h1 h2 hc
    have hp := hold' p h1 h2 hc
    dsimp only
    rw [hinsts _ hp]
    obtain ⟨q₀, hq, hq', hidx, hiff⟩ := hi.indices.store p h1 (by omega) hc
    refine ⟨q₀, hq, ?_, hidx, fun q h3 h4 => hiff q h3 (by omega)⟩
    by_contra hlt
    have h3 : f.loadHead ≤ ltail := hc₁.loads.le
    have h4 := hgt₁ ltail (le_rfl) (by omega)
    have h5 := (hiff ltail h3 (by omega)).mpr (by omega)
    omega
  · rw [hsq'.violator] at hset
    obtain ⟨hset, hle⟩ := hset₂ v hset
    rw [hsq₁.violator] at hset
    obtain ⟨hload, hlive, hlt, hlast⟩ := hv v hset
    rw [hinsts v hle, hsq'.violatedBy, hby₂, hsq₁.violatedBy]
    exact ⟨hload, hlive, hlt, hlast⟩
  · rw [hsq'.prefetch, hinsts₂, hsq₁.prefetch]

end Gem5.O3.LsqUnit
