import Gem5.O3.LsqLoads

namespace Gem5.O3.LsqUnit

open Lib List Function

variable {cfg : LsqConfig} {w w' : Watched} {u : LsqUnit} {h : History} {f : Layout}
  {part : List StorePacket}

/-! Stores reach the cache once and in program order. -/

/-- The next store waits for the cache, for a port, or under TSO for an answer; or it is sent by
the next call. -/
theorem Inv.waits (hi : Inv cfg u h f part) (hlt : f.storeWB < f.storeTail)
    (hcan : (u.storeQueue u.storeWBIdx).canWB = true) :
    u.isStoreBlocked = true ∨ u.hasPendingPkt = true ∨ canWriteback cfg u = true ∨
      cfg.cachePorts ≤ u.usedPorts ∨ cfg.needsTSO = true ∧
        ∃ pkt, StoreEvent.accepted pkt ∈ u.log ∧ pkt ∉ h.responded := by
  have hw := hi.stores
  by_cases hports : u.usedPorts < cfg.cachePorts
  · by_cases hgate : cfg.needsTSO = true ∧ u.storeInFlight = true
    · obtain ⟨p, h1, h2, h3, h4⟩ := hi.service.inFlight hgate.1 hgate.2
      rcases hi.service.served p h1 h2 h3 with ⟨hpre, -⟩ | ⟨-, pkt, hpkt, hnot⟩
      · rw [h4] at hpre
        cases hpre
      · refine .inr (.inr (.inr (.inr ⟨hgate.1, pkt, ?_, hnot⟩)))
        rw [← mem_accepted, hi.service.accepted]
        exact mem_append_left _ (mem_flatMap.mpr ⟨_, hi.order.sent p h1 h2, hpkt⟩)
    refine .inr (.inr (.inl ?_))
    have hopen : f.storeWB ∈ openStores cfg u f := by
      refine Finset.mem_filter.mpr ⟨Finset.mem_Ico.mpr ⟨hw.head_le, hlt⟩, ?_,
        hi.entries.waiting _ (le_rfl) hlt⟩
      rw [← hw.wb]
      exact hcan
    have hpos := Finset.card_pos.mpr ⟨_, hopen⟩
    have hcount := hi.entries.count
    have hcell := hw.cell _ hw.head_le hlt
    rw [← hw.wb] at hcell
    have hne : u.storeWBIdx ≠ u.storeTail := by
      have := hw.room
      have := hw.head_le
      rw [hw.wb, hw.tail]
      exact Ring.mod_ne hlt.ne (by omega) (by omega)
    unfold canWriteback
    simp only [Bool.and_eq_true, decide_eq_true_eq, Bool.or_eq_true, Bool.not_eq_true']
    refine ⟨⟨⟨⟨⟨by omega, hne⟩, by rw [hcell]; rfl⟩, hcan⟩, ?_⟩, hports⟩
    rw [not_and_or] at hgate
    exact hgate.imp (by simp) (by simp)
  · exact .inr (.inr (.inr (.inl (not_lt.mp hports))))

def entryFrom (cfg : LsqConfig) (u : LsqUnit) (i : Nat) : SQEntry :=
  u.storeQueue ((u.storeHead + i) % cfg.sqEntries)

/-- The number of entries from `storeHead` on, before the given index. -/
def entriesTo (cfg : LsqConfig) (u : LsqUnit) (idx : Nat) : Nat :=
  Ring.distance cfg.sqEntries u.storeHead idx

/-- No data prefetch is executed as a store with data. -/
def PrefetchesNoData (w : Watched) : Move → Prop
  | .executeStore seqNum (.access req) _ =>
    (w.unit.insts seqNum).isDataPrefetch = true → req.size % 256 = 0
  | _ => True

instance (w : Watched) (m : Move) : Decidable (PrefetchesNoData w m) := by
  unfold PrefetchesNoData
  split <;> infer_instance

section

variable (hi : Inv cfg u h f part)
include hi

theorem Inv.entryFrom_eq (i : Nat) :
    entryFrom cfg u i = u.storeQueue ((f.storeHead + i) % cfg.sqEntries) := by
  unfold entryFrom
  rw [hi.stores.head, Nat.mod_add_mod]

theorem Inv.entriesTo_tail : entriesTo cfg u u.storeTail = f.storeTail - f.storeHead := by
  unfold entriesTo
  rw [hi.stores.head, hi.stores.tail]
  exact Ring.distance_mod (hi.stores.head_le.trans hi.stores.wb_le) hi.stores.room

theorem Inv.entriesTo_wb : entriesTo cfg u u.storeWBIdx = f.storeWB - f.storeHead := by
  unfold entriesTo
  rw [hi.stores.head, hi.stores.wb]
  exact Ring.distance_mod hi.stores.head_le (hi.stores.wb_le.trans_lt hi.stores.room)

theorem Inv.stores_eq : u.stores = entriesTo cfg u u.storeTail := by
  have hle := hi.stores.head_le
  have hle' := hi.stores.wb_le
  rw [hi.entriesTo_tail, hi.stores.stores]
  omega

end

theorem card_filter_Ico (P : Nat → Prop) [DecidablePred P] (a b : Nat) :
    ((Finset.Ico a b).filter P).card = (List.range (b - a)).countP (fun i => P (a + i)) := by
  have hcount : (List.range (b - a)).countP (fun i => P (a + i)) =
      Nat.count (fun i => P (a + i)) (b - a) := rfl
  rw [hcount, Nat.count_eq_card_filter_range]
  refine Finset.card_nbij' (· - a) (a + ·) ?_ ?_ ?_ ?_
  · intro p hp
    simp only [Finset.coe_filter, Finset.mem_Ico, Finset.mem_range, Set.mem_ofPred_eq] at hp ⊢
    rw [Nat.add_sub_cancel' hp.1.1]
    exact ⟨by omega, hp.2⟩
  · intro i hin
    simp only [Finset.coe_filter, Finset.mem_Ico, Finset.mem_range, Set.mem_ofPred_eq] at hin ⊢
    exact ⟨by omega, hin.2⟩
  · intro p hp
    simp only [Finset.coe_filter, Finset.mem_Ico, Set.mem_ofPred_eq] at hp
    exact Nat.add_sub_cancel' hp.1.1
  · intro i _
    exact Nat.add_sub_cancel_left ..

theorem Inv.storesToWB_eq (hi : Inv cfg u h f part) :
    u.storesToWB = ((List.range (entriesTo cfg u u.storeTail)).countP (fun i =>
      (entryFrom cfg u i).canWB && !(entryFrom cfg u i).completed) : Nat) := by
  rw [hi.entries.count, hi.entriesTo_tail]
  unfold openStores
  rw [card_filter_Ico]
  simp only [hi.entryFrom_eq, Bool.decide_and, Bool.decide_eq_true, Bool.decide_eq_false]

/-- The stores that are executed as data prefetches have no data. -/
def Bare (w : Watched) : Prop :=
  ∀ s, (w.unit.insts s).isDataPrefetch = true → ¬ HasData w.toHistory s

/-- A store's request is noted when it executes, and not changed later. -/
theorem apply_requests (happly : apply cfg w m = .ok w') :
    w'.requests = w.requests ∨ ∃ seqNum req data, m = .executeStore seqNum (.access req) data ∧
      w'.requests = update w.requests seqNum (some (req, data)) := by
  cases m with
  | executeStore seqNum initiated data =>
    obtain ⟨r, -, happly⟩ := bind_eq_ok.mp happly
    cases happly
    cases initiated with
    | access req => exact .inr ⟨seqNum, req, data, rfl, rfl⟩
    | _ => exact .inl rfl
  | getMemDepViolator | tick =>
    cases happly
    exact .inl rfl
  | _ =>
    obtain ⟨_, -, happly⟩ := bind_eq_ok.mp happly
    cases happly
    exact .inl rfl

theorem Bare.step (hs : Sound cfg w) (hb : Bare w) (hen : Enabled w m)
    (hcond : PrefetchesNoData w m) (happly : apply cfg w m = .ok w') : Bare w' := by
  have hkept := ((apply_sound hs m hen).of_ok happly).2
  obtain ⟨⟨f, part, hi⟩, -⟩ := hs
  have hold : ∀ s, (w'.unit.insts s).isDataPrefetch = true → ¬ HasData w.toHistory s := by
    rintro s hpre ⟨r, hr, hsize⟩
    have hle : s ≤ w.lastSeqNum := by
      by_contra hlt
      rw [hi.written.fresh s (not_le.mp hlt)] at hr
      cases hr
    rw [hkept.prefetch s hle] at hpre
    exact hb s hpre ⟨r, hr, hsize⟩
  rintro s hpre ⟨r, hr, hsize⟩
  rcases apply_requests happly with hreq | ⟨seqNum, req, data, rfl, hreq⟩
  · rw [hreq] at hr
    exact hold s hpre ⟨r, hr, hsize⟩
  rw [hreq] at hr
  obtain rfl | hseq := eq_or_ne s seqNum
  · rw [update_self] at hr
    cases hr
    rw [hkept.prefetch s (hi.order.known s hen.2.1)] at hpre
    exact hsize (hcond hpre)
  · rw [update_of_ne hseq] at hr
    exact hold s hpre ⟨r, hr, hsize⟩

theorem reachable_bare (h : ((machine cfg).restrict PrefetchesNoData).Reachable w) :
    Sound cfg w ∧ Bare w := by
  refine h.invariant (I := fun w => Sound cfg w ∧ Bare w) (fun w hw => ?_)
    (fun w m w' hw hstep => ?_)
  · rw [show w = initial from hw]
    refine ⟨initial_sound cfg, fun s hpre => ?_⟩
    cases hpre
  · exact ⟨((apply_sound hw.1 m hstep.1.1).of_ok hstep.1.2).1,
      hw.2.step hw.1 hstep.1.1 hstep.2 hstep.1.2⟩

section

variable (hi : Inv cfg u h f part) (hb : ∀ s, (u.insts s).isDataPrefetch = true → ¬ HasData h s)
include hi hb

/-- Without data prefetches, a store that has been passed and has not completed waits for the
cache. -/
theorem Inv.awaited (hp : f.storeHead ≤ p) (hp' : p < f.storeWB)
    (hopen : (u.storeQueue (p % cfg.sqEntries)).completed = false) :
    ∃ pkt ∈ packets cfg u h (f.storeAt p), StoreEvent.accepted pkt ∈ u.log ∧ pkt ∉ h.responded := by
  rcases hi.service.served p hp hp' hopen with ⟨hpre, hdata⟩ | ⟨-, pkt, hpkt, hnot⟩
  · exact absurd hdata (hb _ hpre)
  · refine ⟨pkt, hpkt, ?_, hnot⟩
    rw [← mem_accepted, hi.service.accepted]
    exact mem_append_left _ (mem_flatMap.mpr ⟨_, hi.order.sent p hp hp', hpkt⟩)

/-- With nothing left to send and every packet answered, the queue is empty. -/
theorem Inv.drained (hwb : f.storeWB = f.storeTail)
    (hall : ∀ pkt, StoreEvent.accepted pkt ∈ u.log → pkt ∈ h.responded) :
    f.storeHead = f.storeTail := by
  rcases lt_or_ge f.storeHead f.storeTail with hlt | hge
  · obtain ⟨pkt, -, hacc, hnot⟩ := hi.awaited hb (le_rfl) (hwb ▸ hlt) (hi.freed hlt)
    exact absurd (hall pkt hacc) hnot
  · exact le_antisymm (hi.stores.head_le.trans hi.stores.wb_le) hge

end

/-- `stores` and `storesToWB` count the entries; the entries are in program order; one that has
been passed has completed, or an answer of the cache will complete it; and a queue that has been
drained is empty. -/
theorem store_entries_accounted (h : ((machine cfg).restrict PrefetchesNoData).Reachable w) :
    w.unit.stores = entriesTo cfg w.unit w.unit.storeTail ∧
    w.unit.storesToWB = ((List.range (entriesTo cfg w.unit w.unit.storeTail)).countP (fun i =>
      (entryFrom cfg w.unit i).canWB && !(entryFrom cfg w.unit i).completed) : Nat) ∧
    (∃ insts : List Nat, insts.Pairwise (· < ·) ∧
      (List.range (entriesTo cfg w.unit w.unit.storeTail)).map
        (fun i => (entryFrom cfg w.unit i).inst) = insts.map some) ∧
    (∀ i, i < entriesTo cfg w.unit w.unit.storeWBIdx → (entryFrom cfg w.unit i).completed = true ∨
      ∃ pkt, (entryFrom cfg w.unit i).inst = some pkt.inst ∧
        StoreEvent.accepted pkt ∈ w.unit.log ∧ pkt ∉ w.responded ∧
        ((∀ pk ∈ packets cfg w.unit w.toHistory pkt.inst, pk = pkt ∨ pk ∈ w.responded) →
          Meets (completeDataAccess cfg pkt w.unit) (fun _ => False)
            (fun u => StoreEvent.completed pkt.inst ∈ u.log))) ∧
    (w.unit.storeWBIdx = w.unit.storeTail →
      (∀ pkt, StoreEvent.accepted pkt ∈ w.unit.log → pkt ∈ w.responded) →
      w.unit.storeHead = w.unit.storeTail ∧ w.unit.stores = 0 ∧ w.unit.storesToWB = 0) := by
  obtain ⟨⟨⟨f, part, hi⟩, -⟩, hb⟩ := reachable_bare h
  have hle := hi.stores.head_le
  have hle' := hi.stores.wb_le
  have hroom := hi.stores.room
  refine ⟨hi.stores_eq, hi.storesToWB_eq, ⟨(List.range (f.storeTail - f.storeHead)).map
    (fun i => f.storeAt (f.storeHead + i)), ?_, ?_⟩, fun i hlt => ?_, fun hend hall => ?_⟩
  · rw [pairwise_map, pairwise_iff_getElem]
    intro i j hi' hj hij
    rw [length_range] at hi' hj
    rw [getElem_range, getElem_range]
    exact hi.stores.order _ _ (Nat.le_add_right _ _) (Nat.add_lt_add_left hij _) (by omega)
  · rw [hi.entriesTo_tail, map_map]
    refine map_congr_left (fun i hmem => ?_)
    rw [mem_range] at hmem
    rw [hi.entryFrom_eq]
    exact hi.stores.cell _ (Nat.le_add_right _ _) (by omega)
  · rw [hi.entriesTo_wb] at hlt
    rw [hi.entryFrom_eq]
    have hp : f.storeHead ≤ f.storeHead + i := Nat.le_add_right _ _
    have hp' : f.storeHead + i < f.storeWB := by omega
    cases hopen : (w.unit.storeQueue ((f.storeHead + i) % cfg.sqEntries)).completed with
    | true => exact .inl rfl
    | false =>
      obtain ⟨pkt, hpkt, hacc, hnot⟩ := hi.awaited hb hp hp' hopen
      refine .inr ⟨pkt, ?_, hacc, hnot, fun hlast => ?_⟩
      · rw [inst_of_mem_packets hpkt]
        exact hi.stores.cell _ hp (by omega)
      · refine (completeDataAccess_spec hi hacc hnot).mono (fun u hu => hu.2.2 (fun pk hpk => ?_))
        exact mem_cons.mpr (hlast pk hpk)
  · have hwb : f.storeWB = f.storeTail := by
      rw [hi.stores.wb, hi.stores.tail] at hend
      by_contra hne
      exact Ring.mod_ne hne (by omega) (by omega) hend
    have hempty := hi.drained hb hwb hall
    have hzero : entriesTo cfg w.unit w.unit.storeTail = 0 := by
      rw [hi.entriesTo_tail, hempty, Nat.sub_self]
    refine ⟨?_, ?_, ?_⟩
    · rw [hi.stores.head, hi.stores.tail, hempty]
    · rw [hi.stores_eq, hzero]
      rfl
    · rw [hi.storesToWB_eq, hzero]
      rfl

/-- Two stores, of which the first has been answered. -/
theorem store_entries_accounted_run :
    ∃ w, ((machine smallLsq).restrict PrefetchesNoData).Reachable w ∧
      w.unit.storesToWB = 1 ∧ w.unit.stores = entriesTo smallLsq w.unit w.unit.storeTail := by
  obtain ⟨w, hw, hP⟩ := Machine.exists_run
    (Machine.restrict_step (step_of_move smallLsq) PrefetchesNoData) (.start rfl)
    [.insertStore 1 false false, .executeStore 1 (.access { vaddr := 16, size := 8 }) (fun _ => 0),
      .insertStore 2 false false, .executeStore 2 (.access { vaddr := 32, size := 8 }) (fun _ => 0),
      .commitStores 2,
      .writebackStores { accept := fun _ => true, handleLockedWrite := fun _ => true },
      .completeDataAccess ⟨1, .whole⟩] (P := fun w => w.unit.storesToWB = 1) (by decide)
  exact ⟨w, hw, hP, (store_entries_accounted hw).1⟩

/-- The entry of a data prefetch with data is passed without a packet and without completing: it
stays at the head of the queue. -/
theorem prefetch_never_completes : ∃ w, (machine smallLsq).Reachable w ∧
    w.unit.storeWBIdx = w.unit.storeTail ∧ accepted w.unit.log = [] ∧ w.unit.stores = 1 ∧
    w.unit.storesToWB = 1 ∧ (w.unit.storeQueue w.unit.storeHead).completed = false := by
  exact Machine.exists_run (step_of_move smallLsq) (.start rfl) [.insertStore 1 false true,
      .executeStore 1 (.access { vaddr := 16, size := 8 }) (fun _ => 0), .commitStores 1,
      .writebackStores { accept := fun _ => true, handleLockedWrite := fun _ => true }] (by decide)

end Gem5.O3.LsqUnit
