import Gem5.O3.LsqInvariant

namespace Gem5.O3.LsqUnit

open Lib Function LsqUnit.DynInst

variable {cfg : LsqConfig} {u u' : LsqUnit} {h k : History} {f : Layout} {part : List StorePacket}

/-! Executing loads. -/

theorem LoadWindow.find {last idx ld : Nat} (hw : LoadWindow cfg u last f)
    (hld : u.loadQueue idx = some ld) :
    ∃ q, f.loadHead ≤ q ∧ q < f.loadTail ∧ idx = q % cfg.lqEntries ∧ f.loadAt q = ld := by
  obtain ⟨q, hq, hq', rfl⟩ := hw.only idx ld hld
  refine ⟨q, hq, hq', rfl, ?_⟩
  rw [hw.cell q hq hq'] at hld
  exact Option.some.inj hld

/-- A load still to be executed notes where the stores before it end, which `storeWBIdx` has not
passed. -/
theorem Aside.storesBefore (hi : Aside cfg u h f part) (hq : f.loadHead ≤ q)
    (hq' : q < f.loadTail) (hlt : h.committedNum < f.loadAt q) :
    ((u.insts (f.loadAt q)).sqIdx = none ∧
      ∀ p, f.storeWB ≤ p → p < f.storeTail → ¬f.storeAt p < f.loadAt q) ∨
    ∃ high, f.storeWB ≤ high ∧ high ≤ f.storeTail ∧
      (u.insts (f.loadAt q)).sqIdx = some (high % cfg.sqEntries) ∧
      ∀ p, f.storeWB ≤ p → p < f.storeTail → (f.storeAt p < f.loadAt q ↔ p < high) := by
  have hhead := hi.stores.head_le
  rcases hi.indices.load q hq hq' hlt with ⟨hnone, hafter⟩ | ⟨high, hlow, hhigh, hsome, hiff⟩
  · exact .inl ⟨hnone, fun p hp hp' hbefore =>
      absurd (hafter p (hhead.trans hp) hp') (Nat.not_lt_of_gt hbefore)⟩
  refine .inr ⟨high, ?_, hhigh, hsome, fun p hp hp' => hiff p (hhead.trans hp) hp'⟩
  by_contra hwb
  have hwb : high < f.storeWB := not_le.mp hwb
  have htail := hwb.trans_le hi.stores.wb_le
  have hle := hi.entries.bound high hlow htail (hi.entries.canWB high hlow hwb)
  exact absurd ((hiff high hlow htail).mp (hle.trans_lt hlt)) (lt_irrefl _)

section

variable (hi : Inv cfg u h f part) (hq : f.loadHead ≤ q) (hq' : q < f.loadTail)
  (hlt : h.committedNum < f.loadAt q) (req : Request) (env : ReadEnv)
include hi hq hq' hlt req env

/-- `read` walks over the stores before the load that have not been sent. -/
theorem read_walked (hipr : req.mmappedIpr = false) :
    Meets (read cfg req (q % cfg.lqEntries) env u) (· = .noStallingLoad) (fun r =>
      r = (.fault, u) ∨ ∃ high, high ≤ f.storeTail ∧ Walked cfg u f req (f.loadAt q) high r ∧
        ∀ p, f.storeWB ≤ p → p < f.storeTail → (f.storeAt p < f.loadAt q ↔ p < high)) := by
  have hload := hi.loads.isLoad q hq hq'
  unfold read
  rw [hi.loads.cell q hq hq']
  dsimp only
  split
  · exact .ok (.inl rfl)
  rw [hipr, if_neg (by simp)]
  rcases hi.aside.storesBefore hq hq' hlt with ⟨hnone, hafter⟩ | ⟨high, hlow, hhigh, hsome, hiff⟩
  · rw [hnone]
    exact .ok (.inr ⟨f.storeWB, hi.stores.wb_le, accessCache_walked hload env (le_rfl),
      fun p hp hp' => ⟨fun hb => absurd hb (hafter p hp hp'), fun hb => by omega⟩⟩)
  · rw [hsome]
    have hroom := hi.stores.room
    have hhead := hi.stores.head_le
    refine (forwardLoop_walked hi.stores hi.written.valid hi.entries.waiting hload _ high hlow hhigh
      (by omega)).mono (fun r hr => .inr ⟨high, hhigh, hr, hiff⟩)

theorem read_loadOnly :
    Meets (read cfg req (q % cfg.lqEntries) env u) (fun e => e = .noStallingLoad ∨ e = .iprData)
      (fun r => LoadOnly u r.2 ∧ r.2.memDepViolator = u.memDepViolator ∧
        r.2.violatedBy = u.violatedBy) := by
  by_cases hipr : req.mmappedIpr = true
  · unfold read
    rw [hi.loads.cell q hq hq']
    dsimp only
    split
    · exact .ok ⟨.refl u, rfl, rfl⟩
    · split
      · exact .error (.inr rfl)
      · exact .ok ⟨.setInst u (hi.loads.isLoad q hq hq') ⟨rfl, rfl, rfl, rfl, rfl, rfl⟩, rfl, rfl⟩
  · refine ((read_walked hi hq hq' hlt req env (by simpa using hipr)).mono_error
      (fun e he => .inl he)).mono (fun r hr => ?_)
    rcases hr with rfl | ⟨_, _, hr, _⟩
    · exact ⟨.refl u, rfl, rfl⟩
    · exact ⟨hr.only, hr.violator⟩

end

section

variable (hi : Inv cfg u h f part) (hv : ViolatorLive u h.lastSeqNum)
include hi hv

theorem Inv.translated (hq : f.loadHead ≤ q) (hq' : q < f.loadTail) (req : Request) :
    Inv cfg (u.setInst (f.loadAt q) (translated (u.insts (f.loadAt q)) req)) h f part ∧
      ViolatorLive (u.setInst (f.loadAt q) (translated (u.insts (f.loadAt q)) req))
        h.lastSeqNum := by
  have hu : LoadOnly u (u.setInst (f.loadAt q) (DynInst.translated (u.insts (f.loadAt q)) req)) :=
    .setInst u (hi.loads.isLoad q hq hq') ⟨rfl, rfl, rfl, rfl, rfl, rfl⟩
  exact ⟨hu.inv hi, hv.keep hu ⟨rfl, rfl⟩⟩

theorem executeLoad_inv (hlt : h.committedNum < seqNum)
    (hld : u.loadQueue (u.insts seqNum).lqIdx = some seqNum) (initiated : Initiated)
    (env : ReadEnv) :
    Meets (executeLoad cfg seqNum initiated env u) (fun e => e = .noStallingLoad ∨ e = .iprData)
      (fun r => Inv cfg r.2 h f part ∧ ViolatorLive r.2 h.lastSeqNum ∧
        ∀ s, Same (u.insts s) (r.2.insts s)) := by
  obtain ⟨q, hq, hq', hidx, rfl⟩ := hi.loads.find hld
  unfold executeLoad
  rw [if_neg (by simp [hi.loads.live q hq hq'])]
  cases initiated with
  | delayed => exact .ok ⟨hi, hv, fun _ => .refl _⟩
  | predicatedFalse => exact .ok ⟨hi, hv, fun _ => .refl _⟩
  | fault strictlyOrdered =>
    have hu : LoadOnly u (u.setInst (f.loadAt q)
        { u.insts (f.loadAt q) with strictlyOrdered }) :=
      .setInst u (hi.loads.isLoad q hq hq') ⟨rfl, rfl, rfl, rfl, rfl, rfl⟩
    exact .ok ⟨hu.inv hi, hv.keep hu ⟨rfl, rfl⟩, hu.same⟩
  | access req =>
    dsimp only
    rw [hidx]
    obtain ⟨hit, hvt⟩ := hi.translated hv hq hq' req
    refine (read_loadOnly hit hq hq' hlt req env).bind (fun r hr => ?_)
    have hir : Inv cfg r.2 h f part := hr.1.inv hit
    have hvr : ViolatorLive r.2 h.lastSeqNum := hvt.keep hr.1 hr.2
    have hsame : ∀ s, Same (u.insts s) (r.2.insts s) := fun s =>
      (same_setInst u (s := f.loadAt q) (i := translated (u.insts (f.loadAt q)) req)
        ⟨rfl, rfl, rfl, rfl, rfl, rfl⟩ s).trans (hr.1.same s)
    split
    · exact .ok ⟨hir, hvr, hsame⟩
    split
    · have := hi.loads.room
      rw [Ring.next_mod (lqEntries_pos cfg)]
      refine (checkViolations_checked _ (q + 1) r.2 hir.loads (by omega) hq'
        (by omega)).of_yields.bind (fun v hc => .ok ⟨hc.only.inv hir, ?_, fun s =>
          (hsame s).trans (hc.only.same s)⟩)
      exact hvr.checked hir.loads hc (by omega) (fun q' hle hlt' => hi.loads.order q q' hq hle hlt')
    · exact .ok ⟨hir, hvr, hsame⟩

end

/-! Changes to the entry of one store. -/

theorem StoreWindow.storeAt_ne {last p p' : Nat} (hw : StoreWindow cfg u last f)
    (hp : f.storeHead ≤ p) (hpt : p < f.storeTail) (hp' : f.storeHead ≤ p')
    (hpt' : p' < f.storeTail)
    (hne : p' ≠ p) : f.storeAt p' ≠ f.storeAt p := by
  rcases Nat.lt_or_gt_of_ne hne with hlt | hlt
  · exact (hw.order p' p hp' hlt hpt).ne
  · exact (hw.order p p' hp hlt hpt').ne'

/-- The stores that have been written back are before the others. -/
theorem ProgramOrder.lt_of_advanced (hs : ProgramOrder u h f) (hmem : s ∈ advanced u.log)
    (hp : f.storeWB ≤ p) (hp' : p < f.storeTail) : s < f.storeAt p := by
  have hsorted := hs.sorted
  rw [hs.program, List.pairwise_append] at hsorted
  exact hsorted.2.2 s hmem _ (mem_liveStores.mpr ⟨p, hp, hp', rfl⟩)

theorem ProgramOrder.find (hs : ProgramOrder u h f) (hmem : s ∈ h.program)
    (hlt : h.committedNum < s) : ∃ p, f.storeWB ≤ p ∧ p < f.storeTail ∧ f.storeAt p = s := by
  rw [hs.program] at hmem
  rcases List.mem_append.mp hmem with hadv | hlive
  · exact absurd (hs.passed s hadv) (Nat.not_le_of_lt hlt)
  · exact mem_liveStores.mp hlive

def putEntry (cfg : LsqConfig) (u : LsqUnit) (f : Layout) (p : Nat) (i : DynInst) (e : SQEntry)
    (storesToWB : Int) : LsqUnit :=
  { u with
    insts := update u.insts (f.storeAt p) i
    storeQueue := update u.storeQueue (p % cfg.sqEntries) e
    storesToWB }

/-- The entry of a store that may not be written back yet changes, the store, and what it asks
for. -/
theorem Inv.setEntry (hi : Inv cfg u h f part) (hp : f.storeWB ≤ p)
    (hp' : p < f.storeTail) (hcan : (u.storeQueue (p % cfg.sqEntries)).canWB = false)
    (hsame : Same (u.insts (f.storeAt p)) i)
    (hmem : i.memData = (u.insts (f.storeAt p)).memData)
    (hinst : e.inst = (u.storeQueue (p % cfg.sqEntries)).inst)
    (hcompleted : e.completed = (u.storeQueue (p % cfg.sqEntries)).completed)
    (hcommitted : e.committed = (u.storeQueue (p % cfg.sqEntries)).committed)
    {requests : Nat → Option (Request × (Nat → UInt8))}
    (hrequests : ∀ s, s ≠ f.storeAt p → requests s = h.requests s)
    (hbound : e.canWB = true → f.storeAt p ≤ h.committedNum)
    (hblank : requests (f.storeAt p) = none → e.size = 0 ∧ e.isSplit = false)
    (hfilled : ∀ req data, requests (f.storeAt p) = some (req, data) → Filled cfg e i req data)
    (hn : n = u.storesToWB + if e.canWB then 1 else 0) :
    Inv cfg (putEntry cfg u f p i e n) { h with requests } f part := by
  have hwb := hi.stores.head_le
  have hhead : f.storeHead ≤ p := hwb.trans hp
  have hset : EntrySet cfg u (putEntry cfg u f p i e n) f p e := ⟨hhead, hp', hi.stores.room, rfl⟩
  have hinsts : ∀ s, Same (u.insts s) ((putEntry cfg u f p i e n).insts s) := same_setInst u hsame
  have hself : (putEntry cfg u f p i e n).insts (f.storeAt p) = i := update_self _ _ _
  have ho : ProgramOrder (putEntry cfg u f p i e n) h f :=
    hi.order.congr rfl (fun s => (hinsts s).isLoad) (fun s _ => (hinsts s).squashed)
  have hcompl := hset.keeps SQEntry.completed hcompleted
  have hcommit := hset.keeps SQEntry.committed hcommitted
  -- what holds of another store
  have hother : ∀ p₁, f.storeWB ≤ p₁ → p₁ < f.storeTail → p₁ ≠ p →
      (putEntry cfg u f p i e n).storeQueue (p₁ % cfg.sqEntries) =
        u.storeQueue (p₁ % cfg.sqEntries) ∧
      (putEntry cfg u f p i e n).insts (f.storeAt p₁) = u.insts (f.storeAt p₁) ∧
      requests (f.storeAt p₁) = h.requests (f.storeAt p₁) := by
    intro p₁ h1 h2 hne
    have hat := hi.stores.storeAt_ne hhead hp' (hwb.trans h1) h2 hne
    exact ⟨hset.other (hwb.trans h1) h2 hne, update_of_ne hat _ _, hrequests _ hat⟩
  refine ⟨⟨⟨hi.loads.congr le_rfl (fun _ _ _ => hinsts _) rfl rfl rfl rfl,
    hi.stores.congr rfl rfl rfl rfl (hset.keeps SQEntry.inst hinst) (fun _ _ _ => hinsts _),
    ⟨fun s hlt => ?_, fun p₁ h1 h2 => ?_, fun p₁ h1 h2 => ?_⟩,
    { ho with },
    ⟨fun p₁ h1 h2 => ?_, fun p₁ h1 h2 hc => ?_, fun p₁ h1 h2 => (hcompl _).trans
      (hi.entries.waiting p₁ h1 h2), fun p₁ h1 h2 => (hcommit _).trans
      (hi.entries.unstarted p₁ h1 h2), fun p₁ h1 h2 hc => ?_, ?_⟩, ?_⟩, ?_,
    fun hlt => (hcompl _).trans (hi.freed hlt)⟩, hi.indices.congr le_rfl hinsts⟩
  · have := hi.stores.known p hhead hp'
    exact (hrequests s (by dsimp only at hlt; omega)).trans (hi.written.fresh s hlt)
  · obtain rfl | heq := eq_or_ne p₁ p
    · rw [hset.self]
      exact hblank
    · simpa only [hother p₁ h1 h2 heq] using hi.written.blank p₁ h1 h2
  · obtain rfl | heq := eq_or_ne p₁ p
    · rw [hset.self, hself]
      exact hfilled
    · simpa only [hother p₁ h1 h2 heq] using hi.written.filled p₁ h1 h2
  · rw [hset.other h1 (by omega) (by omega)]
    exact hi.entries.canWB p₁ h1 h2
  · obtain rfl | heq := eq_or_ne p₁ p
    · rw [hset.self] at hc
      exact hbound hc
    · rw [hset.other h1 h2 heq] at hc
      exact hi.entries.bound p₁ h1 h2 hc
  · rw [hcommit] at hc
    have hnone := hi.entries.noData p₁ h1 h2 hc
    obtain rfl | heq := eq_or_ne p₁ p
    · rw [hself, hmem, hnone]
    · rw [(hother p₁ h1 h2 heq).2.1, hnone]
  · rw [hset.card_openStores, hcompleted, hcan, hi.entries.waiting p hp hp', ← hi.entries.count]
    simpa [putEntry] using hn
  · exact hi.service.congr hi.order rfl rfl (fun _ _ _ => rfl) rfl rfl rfl (fun _ _ => rfl)
      (fun _ _ _ => hcompl _) (fun s _ => (hinsts s).isDataPrefetch)
      (fun s hs => hrequests s (hi.order.lt_of_advanced hs hp hp').ne)
  · -- the store in hand may be written back, so it is another one
    refine hi.inHand.congr rfl rfl rfl rfl rfl
      (fun hstart hlt => (hcommit _).trans (hstart hlt)) (fun hlt hc => ?_)
    have hpne : f.storeWB ≠ p := by
      intro heq
      rw [heq, hcan] at hc
      cases hc
    obtain ⟨hq, -, hr⟩ := hother _ le_rfl hlt hpne
    exact ⟨hlt, rfl, (congrArg SQEntry.canWB hq).trans hc,
      packets_congr hr (hinsts _).isDataPrefetch Iff.rfl⟩

/-! Executing and committing stores. -/

theorem Inv.raise (hi : Inv cfg u h f part) (hle : h.committedNum ≤ n) :
    Inv cfg u { h with committedNum := n } f part where
  loads := hi.loads
  stores := hi.stores
  indices := hi.indices.congr hle (fun _ => .refl _)
  written := { hi.written with }
  order := { hi.order with passed := fun s hs => (hi.order.passed s hs).trans hle }
  entries :=
    { hi.entries with bound := fun p h1 h2 hc => (hi.entries.bound p h1 h2 hc).trans hle }
  service := { hi.service with }
  inHand := hi.inHand.congr rfl rfl rfl rfl rfl (fun hstart => hstart)
    (fun hlt hc => ⟨hlt, rfl, hc, rfl⟩)
  freed := hi.freed

theorem Inv.setCanWB (hi : Inv cfg u h f part) (hp : f.storeWB ≤ p)
    (hp' : p < f.storeTail) (hcan : (u.storeQueue (p % cfg.sqEntries)).canWB = false)
    (hbound : f.storeAt p ≤ h.committedNum) :
    Inv cfg { u.setStore (p % cfg.sqEntries)
        { u.storeQueue (p % cfg.sqEntries) with canWB := true } with
      storesToWB := u.storesToWB + 1 } h f part := by
  have hset := hi.setEntry hp hp' hcan (i := u.insts (f.storeAt p)) (.refl _) rfl
    (e := { u.storeQueue (p % cfg.sqEntries) with canWB := true }) rfl rfl rfl (fun _ _ => rfl)
    (fun _ => hbound) (hi.written.blank p hp hp')
    (fun req data hreq => { hi.written.filled p hp hp' req data hreq with }) rfl
  unfold putEntry at hset
  rwa [update_eq_self] at hset

/-- A store still to be executed may not be written back. -/
theorem Inv.canWB_of_lt (hi : Inv cfg u h f part) (hp : f.storeWB ≤ p) (hp' : p < f.storeTail)
    (hlt : h.committedNum < f.storeAt p) : (u.storeQueue (p % cfg.sqEntries)).canWB = false := by
  rw [Bool.eq_false_iff]
  exact fun hc => absurd (hi.entries.bound p (hi.stores.head_le.trans hp) hp' hc)
    (Nat.not_le_of_lt hlt)

/-- The stores of the window that may not be written back are still to be sent. -/
theorem Inv.wb_le_of_canWB (hi : Inv cfg u h f part) (hp : f.storeHead ≤ p)
    (hcan : (u.storeQueue (p % cfg.sqEntries)).canWB = false) : f.storeWB ≤ p := by
  by_contra hlt
  rw [hi.entries.canWB p hp (not_le.mp hlt)] at hcan
  cases hcan

theorem commitStores_inv (fuel : Nat) :
    ∀ (p : Nat) (u : LsqUnit), Inv cfg u h f part → youngest ≤ h.committedNum → f.storeHead ≤ p →
      p ≤ f.storeTail → f.storeTail < p + fuel →
      Yields (commitStores cfg youngest fuel (p % cfg.sqEntries) u)
        (fun u' => Inv cfg u' h f part ∧ u'.insts = u.insts ∧
          u'.memDepViolator = u.memDepViolator ∧ u'.violatedBy = u.violatedBy) := by
  induction fuel with
  | zero =>
    intro p u _ _ _ hle hlt
    omega
  | succ fuel ih =>
    intro p u hi hy hhead hle hlt
    unfold commitStores
    split_ifs with hne
    · exact .ok ⟨hi, rfl, rfl, rfl⟩
    have hp : p < f.storeTail := by
      rcases lt_or_ge p f.storeTail with h | h
      · exact h
      · rw [hi.stores.tail, show p = f.storeTail by omega] at hne
        exact absurd rfl hne
    have hcell := hi.stores.cell p hhead hp
    dsimp only
    rw [Ring.next_mod (sqEntries_pos cfg)]
    split
    · rename_i hnone
      rw [hcell] at hnone
      cases hnone
    rename_i st hst
    cases hcell.symm.trans hst
    split
    · exact ih (p + 1) u hi hy (by omega) hp (by omega)
    rename_i hcan
    have hcan : (u.storeQueue (p % cfg.sqEntries)).canWB = false := by simpa using hcan
    split_ifs with hyoung
    · exact .ok ⟨hi, rfl, rfl, rfl⟩
    · exact ih (p + 1) _ (hi.setCanWB (hi.wb_le_of_canWB hhead hcan) hp hcan (by omega)) hy
        (by omega) hp (by omega)

/-- The loads that a check of a store has to find are found. -/
def Found (u : LsqUnit) (seqNum : Nat) : Prop :=
  ∀ idx ld, u.loadQueue idx = some ld → seqNum < ld → Suspect u seqNum ld →
    ∃ v, u.memDepViolator = some v ∧ v ≤ ld

def History.executed (h : History) (seqNum : Nat) (initiated : Initiated) (data : Nat → UInt8)
    (conditional : Bool) : History :=
  { h with
    committedNum := if conditional then seqNum else h.committedNum
    requests := match initiated with
      | .access req => Function.update h.requests seqNum (some (req, data))
      | _ => h.requests }

section

variable (hi : Inv cfg u h f part)
include hi

/-- A store checks the loads from the position that it has noted. -/
theorem checkStore_violations (hv : ViolatorLive u h.lastSeqNum)
    (hp : f.storeHead ≤ p) (hp' : p < f.storeTail) (hq : f.loadHead ≤ q₀) (hq' : q₀ ≤ f.loadTail)
    (hidx : (u.insts (f.storeAt p)).lqIdx = q₀ % cfg.lqEntries)
    (hiff : ∀ q, f.loadHead ≤ q → q < f.loadTail → (f.loadAt q < f.storeAt p ↔ q < q₀)) :
    Yields (checkViolations cfg (f.storeAt p) (cfg.lqEntries + 1) (u.insts (f.storeAt p)).lqIdx u)
      (fun u' => Inv cfg u' h f part ∧ ViolatorLive u' h.lastSeqNum ∧ Found u' (f.storeAt p) ∧
        u'.insts = u.insts) := by
  have hroom := hi.loads.room
  have hstore := hi.stores.isStore p hp hp'
  rw [hidx]
  refine (checkViolations_checked _ q₀ u hi.loads hq hq' (by omega)).mono
    (fun u' hc => ⟨hc.only.inv hi, ?_, ?_, hc.insts hstore⟩)
  · refine hv.checked hi.loads hc hq (fun q hle hlt => ?_)
    have hload := hi.loads.isLoad q (hq.trans hle) hlt
    have hne : f.storeAt p ≠ f.loadAt q := by
      intro heq
      rw [heq, hload] at hstore
      cases hstore
    have := (hiff q (hq.trans hle) hlt).not.mpr (by omega)
    omega
  · intro idx ld hld hlt hsus
    rw [hc.only.loadQueue] at hld
    obtain ⟨q, hlow, hhigh, -, rfl⟩ := hi.loads.find hld
    have hle : q₀ ≤ q := by
      by_contra hgt
      have := (hiff q hlow hhigh).mpr (by omega)
      omega
    refine hc.found hstore q hle hhigh ?_
    unfold Suspect at hsus ⊢
    rwa [hc.insts hstore] at hsus

theorem write_inv (hp : f.storeWB ≤ p) (hp' : p < f.storeTail)
    (hlt : h.committedNum < f.storeAt p) (hreq : h.requests (f.storeAt p) = none) (req : Request)
    (data : Nat → UInt8) :
    Meets (write cfg req data (p % cfg.sqEntries)
        (u.setInst (f.storeAt p) (translated (u.insts (f.storeAt p)) req)))
      (· = .storeTooLarge)
      (fun u' => Inv cfg u' (h.executed (f.storeAt p) (.access req) data false) f part ∧
        (∀ s, Same (u.insts s) (u'.insts s)) ∧ u'.memDepViolator = u.memDepViolator ∧
        u'.violatedBy = u.violatedBy) := by
  have hhead : f.storeHead ≤ p := hi.stores.head_le.trans hp
  have hcan := hi.canWB_of_lt hp hp' hlt
  obtain ⟨hsize, hsplit⟩ := hi.written.blank p hp hp' hreq
  have hcell : ((u.setInst (f.storeAt p) (translated (u.insts (f.storeAt p)) req)).storeQueue
      (p % cfg.sqEntries)).inst = some (f.storeAt p) := hi.stores.cell p hhead hp'
  have hsame : Same (u.insts (f.storeAt p))
      (translated (u.insts (f.storeAt p)) req) := ⟨rfl, rfl, rfl, rfl, rfl, rfl⟩
  unfold write
  rw [if_neg (by rw [hcell]; simp)]
  split
  · exact .error rfl
  rename_i hfits
  have hfits : req.size ≤ 16 ∨ req.cacheBlockZero = true := by
    by_contra hno
    exact hfits hno
  refine .ok ⟨?_, same_setInst u hsame, rfl, rfl⟩
  have hset := hi.setEntry hp hp' hcan hsame rfl
    (e := { u.storeQueue (p % cfg.sqEntries) with
      req := some req
      size := req.size % 256
      isAllZeros := req.cacheBlockZero
      isSplit := (u.storeQueue (p % cfg.sqEntries)).isSplit ||
        (cfg.hasUnalignedMemAcc && req.split)
      data := if req.cacheBlockZero then (u.storeQueue (p % cfg.sqEntries)).data
        else fun i => if i < req.size then data i
          else (u.storeQueue (p % cfg.sqEntries)).data i })
    rfl rfl rfl (fun s hne => update_of_ne hne (some (req, data)) h.requests)
    (fun hc => absurd hc (by simp [hcan])) (fun hnone => absurd hnone (by simp))
    (fun req' data' hsome => ?_) (n := u.storesToWB) (by simp [hcan])
  · exact hset
  simp only [update_self, Option.some.injEq, Prod.mk.injEq] at hsome
  obtain ⟨rfl, rfl⟩ := hsome
  refine ⟨rfl, rfl, rfl, by rw [hsplit]; rfl, fun hzero => ⟨?_, fun k hk => ?_⟩, rfl, rfl, rfl⟩
  · rcases hfits with hle | hz
    · exact hle
    · rw [hzero] at hz
      cases hz
  · dsimp only
    rw [hzero, if_neg (by simp), if_pos hk]

/-- The end of `executeStore`: a store conditional may be written back at once. -/
theorem checkStore_inv (hv : ViolatorLive u h.lastSeqNum) (hp : f.storeWB ≤ p)
    (hp' : p < f.storeTail) (hlt : h.committedNum < f.storeAt p) (hq : f.loadHead ≤ q₀)
    (hq' : q₀ ≤ f.loadTail) (hidx : (u.insts (f.storeAt p)).lqIdx = q₀ % cfg.lqEntries)
    (hiff : ∀ q, f.loadHead ≤ q → q < f.loadTail → (f.loadAt q < f.storeAt p ↔ q < q₀)) :
    Yields (checkStore cfg (f.storeAt p) (p % cfg.sqEntries) u) (fun r =>
      Inv cfg r.2 { h with committedNum :=
        if r.1 && (r.2.insts (f.storeAt p)).isStoreConditional then f.storeAt p
        else h.committedNum } f part ∧ ViolatorLive r.2 h.lastSeqNum ∧
      (r.1 = true → Found r.2 (f.storeAt p)) ∧ r.2.insts = u.insts) := by
  have hhead : f.storeHead ≤ p := hi.stores.head_le.trans hp
  have hcan := hi.canWB_of_lt hp hp' hlt
  unfold checkStore
  dsimp only
  split
  · exact .ok ⟨hi, hv, by simp, rfl⟩
  have hcheck : ∀ (v : LsqUnit) (n : Nat), v.insts = u.insts →
      ViolatorLive v h.lastSeqNum → Inv cfg v { h with committedNum := n } f part →
      n = (if (u.insts (f.storeAt p)).isStoreConditional then f.storeAt p else h.committedNum) →
      Yields (checkViolations cfg (f.storeAt p) (cfg.lqEntries + 1)
        (u.insts (f.storeAt p)).lqIdx v >>=
          fun u' => .ok (true, u')) (fun r =>
        Inv cfg r.2 { h with committedNum :=
          if r.1 && (r.2.insts (f.storeAt p)).isStoreConditional then f.storeAt p
          else h.committedNum } f part ∧ ViolatorLive r.2 h.lastSeqNum ∧
        (r.1 = true → Found r.2 (f.storeAt p)) ∧ r.2.insts = u.insts) := by
    intro v n hinsts hvv hiv hn
    rw [← hinsts]
    refine (checkStore_violations hiv hvv hhead hp' hq hq' (by rw [hinsts]; exact hidx) hiff).bind
      (fun u' hu' => .ok ⟨?_, hu'.2.1, fun _ => hu'.2.2.1, hu'.2.2.2⟩)
    rw [Bool.true_and, hu'.2.2.2, hinsts, ← hn]
    exact hu'.1
  split_ifs with hsc
  · refine hcheck _ (f.storeAt p) rfl hv ?_ (by rw [if_pos hsc])
    exact (hi.raise hlt.le).setCanWB hp hp' hcan (le_rfl)
  · exact hcheck u h.committedNum rfl hv hi (by rw [if_neg hsc])

theorem executeStore_inv (hv : ViolatorLive u h.lastSeqNum) (hlt : h.committedNum < seqNum)
    (hmem : seqNum ∈ h.program) (hreq : h.requests seqNum = none) (initiated : Initiated)
    (data : Nat → UInt8) :
    Meets (executeStore cfg seqNum initiated data u) (· = .storeTooLarge) (fun r =>
      Inv cfg r.2 (h.executed seqNum initiated data
        (r.1 && (r.2.insts seqNum).isStoreConditional)) f part ∧
      ViolatorLive r.2 h.lastSeqNum ∧ (r.1 = true → Found r.2 seqNum) ∧
      ∀ s, Same (u.insts s) (r.2.insts s)) := by
  obtain ⟨p, hp, hp', rfl⟩ := hi.order.find hmem hlt
  have hhead : f.storeHead ≤ p := hi.stores.head_le.trans hp
  have hcan := hi.canWB_of_lt hp hp' hlt
  obtain ⟨hsize, hsplit⟩ := hi.written.blank p hp hp' hreq
  unfold executeStore
  rw [if_neg (by rw [hi.stores.stores]; omega), if_neg (by simp [hi.stores.live p hhead hp'])]
  have hsq := hi.stores.sqIdx p hhead hp'
  split
  · rename_i hnone
    rw [hsq] at hnone
    cases hnone
  rename_i storeIdx hsome
  cases hsq.symm.trans hsome
  cases initiated with
  | delayed => exact .ok ⟨hi, hv, by simp, fun _ => .refl _⟩
  | predicatedFalse => exact .ok ⟨hi, hv, by simp, fun _ => .refl _⟩
  | fault strictlyOrdered =>
    dsimp only
    rw [if_pos hsize]
    have hsame := same_setInst u (s := f.storeAt p)
      (i := { u.insts (f.storeAt p) with strictlyOrdered }) ⟨rfl, rfl, rfl, rfl, rfl, rfl⟩
    refine .ok ⟨?_, hv.same hsame rfl rfl, by simp, hsame⟩
    have hset := hi.setEntry hp hp' hcan
      (i := { u.insts (f.storeAt p) with strictlyOrdered }) ⟨rfl, rfl, rfl, rfl, rfl, rfl⟩ rfl
      (e := u.storeQueue (p % cfg.sqEntries)) rfl rfl rfl (fun _ _ => rfl)
      (fun hc => by rw [hcan] at hc; cases hc) (fun _ => ⟨hsize, hsplit⟩)
      (fun req data hsome => by rw [hreq] at hsome; cases hsome) rfl
    unfold putEntry at hset
    rw [update_eq_self, hcan, if_neg (by simp), add_zero] at hset
    exact hset
  | access req =>
    obtain ⟨q₀, hq, hq', hidx, hiff⟩ := hi.indices.store p hhead hp' hlt
    refine (write_inv hi hp hp' hlt hreq req data).bind (fun u₁ hu₁ => ?_)
    have hv₁ := hv.same hu₁.2.1 hu₁.2.2.1 hu₁.2.2.2
    refine (checkStore_inv hu₁.1 hv₁ hp hp' hlt hq hq' ((hu₁.2.1 _).lqIdx.trans hidx)
      hiff).of_yields.mono (fun r hr => ⟨hr.1, hr.2.1, hr.2.2.1, fun s => ?_⟩)
    rw [hr.2.2.2]
    exact hu₁.2.1 s

end

end Gem5.O3.LsqUnit
