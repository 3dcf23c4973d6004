import Gem5.O3.LsqSteps

namespace Gem5.O3.LsqUnit

open Lib List Function

variable {cfg : LsqConfig} {u u' : LsqUnit} {h h' : History} {f f' : Layout}
  {part : List StorePacket} {seqNum : Nat} {i : DynInst}

/-! Inserting instructions. -/

theorem room_of_ne {n head tail : Nat} (hroom : tail < head + n)
    (hne : (tail % n + 1) % n ≠ head % n) : tail + 1 < head + n := by
  rcases lt_or_ge (tail + 1) (head + n) with hlt | hge
  · exact hlt
  · refine absurd ?_ hne
    rw [Nat.mod_add_mod, show tail + 1 = head + n by omega, Nat.add_mod_right]

/-- What holds at the positions of a window and at its tail holds at those of the longer one. -/
theorem forall_window {P : Nat → Prop} {head tail : Nat} (hold : ∀ p, head ≤ p → p < tail → P p)
    (hnew : P tail) (p : Nat) (h1 : head ≤ p) (h2 : p < tail + 1) : P p := by
  rcases Nat.lt_succ_iff_lt_or_eq.mp h2 with h2 | rfl
  · exact hold p h1 h2
  · exact hnew

def Layout.pushLoad (f : Layout) (seqNum : Nat) : Layout :=
  { f with
    loadTail := f.loadTail + 1
    loadAt := Function.update f.loadAt f.loadTail seqNum }

/-- The unit with a load at the tail of the load queue. -/
def pushLoad (cfg : LsqConfig) (u : LsqUnit) (seqNum : Nat) (i : DynInst) : LsqUnit :=
  { u with
    insts := update u.insts seqNum i
    loadQueue := update u.loadQueue u.loadTail (some seqNum)
    loadTail := Ring.next cfg.lqEntries u.loadTail
    loads := u.loads + 1 }

section

variable (hw : LoadWindow cfg u h.lastSeqNum f) (hlt : h.lastSeqNum < seqNum)
  (hroom : f.loadTail + 1 < f.loadHead + cfg.lqEntries)

theorem LoadWindow.push_tail (hw : LoadWindow cfg u last f) (seqNum : Nat) (i : DynInst) :
    (pushLoad cfg u seqNum i).loadQueue (f.loadTail % cfg.lqEntries) = some seqNum ∧
    (f.pushLoad seqNum).loadAt f.loadTail = seqNum ∧ (pushLoad cfg u seqNum i).insts seqNum = i :=
  ⟨hw.tail ▸ update_self _ _ _, update_self _ _ _, update_self _ _ _⟩

include hlt in
theorem pushLoad_insts (hs : s ≤ h.lastSeqNum) : (pushLoad cfg u seqNum i).insts s = u.insts s :=
  update_of_ne (hs.trans_lt hlt).ne _ _

include hw hlt hroom in
theorem LoadWindow.push_at (i : DynInst) (h1 : f.loadHead ≤ q) (h2 : q < f.loadTail) :
    (pushLoad cfg u seqNum i).loadQueue (q % cfg.lqEntries) = u.loadQueue (q % cfg.lqEntries) ∧
    (f.pushLoad seqNum).loadAt q = f.loadAt q ∧
    (pushLoad cfg u seqNum i).insts (f.loadAt q) = u.insts (f.loadAt q) := by
  refine ⟨?_, update_of_ne h2.ne _ _, pushLoad_insts hlt (hw.known q h1 h2)⟩
  change update u.loadQueue u.loadTail _ _ = _
  rw [hw.tail]
  exact Ring.update_of_ne (by omega) (by omega) (by omega) _

include hw hlt hroom

theorem LoadWindow.push (hload : i.isLoad = true) (hidx : i.lqIdx = u.loadTail)
    (hlive : i.squashed = false) :
    LoadWindow cfg (pushLoad cfg u seqNum i) seqNum (f.pushLoad seqNum) where
  head := hw.head
  tail := (congrArg _ hw.tail).trans (Ring.next_mod (lqEntries_pos cfg) _)
  le := hw.le.trans (Nat.le_succ _)
  room := hroom
  loads := by
    change u.loads + 1 = ((f.loadTail + 1 : Nat) : Int) - f.loadHead
    rw [hw.loads]
    push_cast
    ring
  cell := forall_window (fun q h1 h2 => by
    simpa only [hw.push_at hlt hroom i h1 h2] using hw.cell q h1 h2)
    (by simp only [hw.push_tail seqNum i])
  only idx ld hld := by
    by_cases hidx : idx = f.loadTail % cfg.lqEntries
    · exact ⟨f.loadTail, hw.le, lt_add_one _, hidx⟩
    · rw [← hw.tail] at hidx
      obtain ⟨q, h1, h2, h3⟩ := hw.only idx ld ((update_of_ne hidx _ _).symm.trans hld)
      exact ⟨q, h1, h2.trans (lt_add_one _), h3⟩
  isLoad := forall_window (fun q h1 h2 => by
    simpa only [hw.push_at hlt hroom i h1 h2] using hw.isLoad q h1 h2)
    (by simpa only [hw.push_tail seqNum i] using hload)
  lqIdx := forall_window (fun q h1 h2 => by
    simpa only [hw.push_at hlt hroom i h1 h2] using hw.lqIdx q h1 h2)
    (by simpa only [hw.push_tail seqNum i] using hidx.trans hw.tail)
  live := forall_window (fun q h1 h2 => by
    simpa only [hw.push_at hlt hroom i h1 h2] using hw.live q h1 h2)
    (by simpa only [hw.push_tail seqNum i] using hlive)
  known := forall_window (fun q h1 h2 => by
    simpa only [hw.push_at hlt hroom i h1 h2] using (hw.known q h1 h2).trans hlt.le)
    (by simp only [hw.push_tail seqNum i, le_rfl])
  order q q' h1 h2 h3 := by
    have hq := hw.push_at hlt hroom i h1 (h2.trans_le (Nat.le_of_lt_succ h3))
    rcases Nat.lt_succ_iff_lt_or_eq.mp h3 with h3 | rfl
    · simpa only [hq, hw.push_at hlt hroom i (h1.trans h2.le) h3] using hw.order q q' h1 h2 h3
    · simpa only [hq, hw.push_tail seqNum i] using (hw.known q h1 h2).trans_lt hlt

/-- All stores in the queue are before the new load. -/
theorem Indices.pushLoad (hi : Indices cfg u h.committedNum f)
    (hs : StoreWindow cfg u h.lastSeqNum f)
    (hidx : i.sqIdx = if u.stores = 0 then none else some u.storeTail) :
    Indices cfg (pushLoad cfg u seqNum i) h.committedNum (f.pushLoad seqNum) := by
  refine ⟨forall_window (fun q h1 h2 => ?_) (fun _ => ?_), fun p h1 h2 hc => ?_⟩
  · obtain ⟨-, hat, hinst⟩ := hw.push_at hlt hroom i h1 h2
    rw [hat, hinst]
    exact hi.load q h1 h2
  · simp only [hw.push_tail seqNum i, hidx]
    have hst := hs.stores
    split_ifs with hzero
    · refine .inl ⟨rfl, fun p hp hp' => ?_⟩
      change p < f.storeTail at hp'
      change f.storeHead ≤ p at hp
      omega
    · refine .inr ⟨f.storeTail, hs.head_le.trans hs.wb_le, le_rfl, by rw [hs.tail],
        fun p hp hp' => ?_⟩
      exact ⟨fun _ => hp', fun _ => (hs.known p hp hp').trans_lt hlt⟩
  · have hps := hs.known p h1 h2
    obtain ⟨q₀, hq, hq', hidx, hiff⟩ := hi.store p h1 h2 hc
    refine ⟨q₀, hq, hq'.trans (Nat.le_succ _), ?_, forall_window (fun q h3 h4 => ?_) ?_⟩
    · exact (congrArg DynInst.lqIdx (pushLoad_insts hlt hps)).trans hidx
    · rw [(hw.push_at hlt hroom i h3 h4).2.1]
      exact hiff q h3 h4
    · simp only [hw.push_tail seqNum i]
      change seqNum < f.storeAt p ↔ _
      omega

end

theorem insertLoad_inv (hi : Inv cfg u h f part) (hlt : h.lastSeqNum < seqNum)
    (isDataPrefetch : Bool) :
    Meets (insertLoad cfg u seqNum { isLoad := true, isDataPrefetch }) (· = .loadQueueFull)
      (fun u' => Inv cfg u' { h with lastSeqNum := seqNum } (f.pushLoad seqNum) part ∧
        (∀ s, s ≤ h.lastSeqNum → u'.insts s = u.insts s) ∧
        u'.memDepViolator = u.memDepViolator ∧ u'.violatedBy = u.violatedBy) := by
  unfold insertLoad
  split
  · exact .error rfl
  rename_i hfull
  rw [not_or] at hfull
  have hw := hi.loads
  have hroom : f.loadTail + 1 < f.loadHead + cfg.lqEntries := by
    refine room_of_ne hw.room (fun heq => hfull.1 ?_)
    rw [hw.tail, hw.head]
    exact heq
  refine .ok ⟨?_, fun s hs => pushLoad_insts hlt hs, rfl, rfl⟩
  generalize hi' : ({ ({ isLoad := true, isDataPrefetch } : DynInst) with
    lqIdx := u.loadTail, sqIdx := if u.stores = 0 then none else some u.storeTail } : DynInst) = i
  have hload : i.isLoad = true := by rw [← hi']
  have hfresh := hi.order.fresh seqNum hlt
  have hside : StoreSide u (pushLoad cfg u seqNum i) := by
    refine ⟨fun s hs => update_of_ne (fun heq => ?_) _ _, fun s => ?_, rfl⟩
    · rw [heq, hfresh] at hs
      cases hs
    · change (update u.insts seqNum i s).isLoad = _
      obtain rfl | heq := eq_or_ne s seqNum
      · rw [update_self, hload, hfresh]
      · rw [update_of_ne heq]
  have hindices := hi.indices.pushLoad (i := i) hw hlt hroom hi.stores (by rw [← hi'])
  exact ⟨hside.core hi.toCore hlt.le (hw.push hlt hroom hload (by rw [← hi']) (by rw [← hi'])),
    hindices⟩

def Layout.pushStore (f : Layout) (seqNum : Nat) : Layout :=
  { f with
    storeTail := f.storeTail + 1
    storeAt := Function.update f.storeAt f.storeTail seqNum }

theorem Layout.liveStores_pushStore (f : Layout) (hle : f.storeWB ≤ f.storeTail) (seqNum : Nat) :
    liveStores (f.pushStore seqNum) = liveStores f ++ [seqNum] := by
  have hlen : (f.pushStore seqNum).storeTail - (f.pushStore seqNum).storeWB =
      (f.storeTail - f.storeWB) + 1 := by
    change f.storeTail + 1 - f.storeWB = _
    omega
  have hlast : f.storeWB + 1 * (f.storeTail - f.storeWB) = f.storeTail := by omega
  unfold liveStores
  rw [hlen, range'_concat, map_append]
  change (List.range' f.storeWB (f.storeTail - f.storeWB)).map (f.pushStore seqNum).storeAt ++
    [(f.pushStore seqNum).storeAt (f.storeWB + 1 * (f.storeTail - f.storeWB))] = _
  rw [hlast, show (f.pushStore seqNum).storeAt f.storeTail = seqNum from update_self _ _ _]
  refine congrArg (· ++ [seqNum]) (map_congr_left (fun p hp => ?_))
  rw [mem_range'_1] at hp
  exact update_of_ne (by omega) _ _

/-- The unit with a store at the tail of the store queue. -/
def pushStore (cfg : LsqConfig) (u : LsqUnit) (seqNum : Nat) (i : DynInst) : LsqUnit :=
  { u with
    insts := update u.insts seqNum i
    storeQueue := update u.storeQueue u.storeTail { inst := some seqNum }
    storeTail := Ring.next cfg.sqEntries u.storeTail
    stores := u.stores + 1 }

/-- The history with a store of the program. -/
def History.pushStore (h : History) (seqNum : Nat) : History :=
  { h with lastSeqNum := seqNum, program := h.program ++ [seqNum] }

/-- The instruction of a store as it is inserted. -/
structure NewStore (u : LsqUnit) (i : DynInst) : Prop where
  isStore : i.isLoad = false
  sqIdx : i.sqIdx = some u.storeTail
  lqIdx : i.lqIdx = u.loadTail
  live : i.squashed = false
  noData : i.memData = none

section

variable (hw : StoreWindow cfg u h.lastSeqNum f) (hlt : h.lastSeqNum < seqNum)
  (hroom : f.storeTail + 1 < f.storeHead + cfg.sqEntries)

theorem StoreWindow.push_tail (hw : StoreWindow cfg u last f) (seqNum : Nat) (i : DynInst) :
    (pushStore cfg u seqNum i).storeQueue (f.storeTail % cfg.sqEntries) = { inst := some seqNum } ∧
    (f.pushStore seqNum).storeAt f.storeTail = seqNum ∧
      (pushStore cfg u seqNum i).insts seqNum = i :=
  ⟨hw.tail ▸ update_self _ _ _, update_self _ _ _, update_self _ _ _⟩

include hlt in
theorem pushStore_insts (hs : s ≤ h.lastSeqNum) : (pushStore cfg u seqNum i).insts s = u.insts s :=
  update_of_ne (hs.trans_lt hlt).ne _ _

include hw hlt hroom in
theorem StoreWindow.push_at (i : DynInst) (h1 : f.storeHead ≤ p) (h2 : p < f.storeTail) :
    (pushStore cfg u seqNum i).storeQueue (p % cfg.sqEntries) = u.storeQueue (p % cfg.sqEntries) ∧
    (f.pushStore seqNum).storeAt p = f.storeAt p ∧
    (pushStore cfg u seqNum i).insts (f.storeAt p) = u.insts (f.storeAt p) := by
  refine ⟨?_, update_of_ne h2.ne _ _, pushStore_insts hlt (hw.known p h1 h2)⟩
  change update u.storeQueue u.storeTail _ _ = _
  rw [hw.tail]
  exact Ring.update_of_ne (by omega) (by omega) (by omega) _

include hw hlt hroom

theorem StoreWindow.push (hi : NewStore u i) :
    StoreWindow cfg (pushStore cfg u seqNum i) seqNum (f.pushStore seqNum) where
  head := hw.head
  wb := hw.wb
  tail := (congrArg _ hw.tail).trans (Ring.next_mod (sqEntries_pos cfg) _)
  head_le := hw.head_le
  wb_le := hw.wb_le.trans (Nat.le_succ _)
  room := hroom
  stores := by
    change u.stores + 1 = ((f.storeTail + 1 : Nat) : Int) - f.storeHead
    rw [hw.stores]
    push_cast
    ring
  cell := forall_window (fun p h1 h2 => by
    simpa only [hw.push_at hlt hroom i h1 h2] using hw.cell p h1 h2)
    (by simp only [hw.push_tail seqNum i])
  isStore := forall_window (fun p h1 h2 => by
    simpa only [hw.push_at hlt hroom i h1 h2] using hw.isStore p h1 h2)
    (by simpa only [hw.push_tail seqNum i] using hi.isStore)
  sqIdx := forall_window (fun p h1 h2 => by
    simpa only [hw.push_at hlt hroom i h1 h2] using hw.sqIdx p h1 h2)
    (by simpa only [hw.push_tail seqNum i, hw.tail] using hi.sqIdx)
  live := forall_window (fun p h1 h2 => by
    simpa only [hw.push_at hlt hroom i h1 h2] using hw.live p h1 h2)
    (by simpa only [hw.push_tail seqNum i] using hi.live)
  known := forall_window (fun p h1 h2 => by
    simpa only [hw.push_at hlt hroom i h1 h2] using (hw.known p h1 h2).trans hlt.le)
    (by simp only [hw.push_tail seqNum i, le_rfl])
  order p p' h1 h2 h3 := by
    have hp := hw.push_at hlt hroom i h1 (h2.trans_le (Nat.le_of_lt_succ h3))
    rcases Nat.lt_succ_iff_lt_or_eq.mp h3 with h3 | rfl
    · simpa only [hp, hw.push_at hlt hroom i (h1.trans h2.le) h3] using hw.order p p' h1 h2 h3
    · simpa only [hp, hw.push_tail seqNum i] using (hw.known p h1 h2).trans_lt hlt

theorem Written.push (hs : Written cfg u h f) :
    Written cfg (pushStore cfg u seqNum i) (h.pushStore seqNum) (f.pushStore seqNum) := by
  refine ⟨fun s hlast => hs.fresh s (hlt.trans hlast),
    forall_window (fun p h1 h2 => ?_) (fun _ => ?_),
    forall_window (fun p h1 h2 => ?_) (fun req data hreq => ?_)⟩
  · simpa only [hw.push_at hlt hroom i (hw.head_le.trans h1) h2, History.pushStore] using
      hs.blank p h1 h2
  · simp only [hw.push_tail seqNum i, and_self]
  · simpa only [hw.push_at hlt hroom i (hw.head_le.trans h1) h2, History.pushStore] using
      hs.filled p h1 h2
  · simp only [hw.push_tail seqNum i] at hreq
    cases (hs.fresh seqNum hlt).symm.trans hreq

theorem ProgramOrder.push (ho : ProgramOrder u h f) (hi : NewStore u i) :
    ProgramOrder (pushStore cfg u seqNum i) (h.pushStore seqNum) (f.pushStore seqNum) := by
  have hprogram : ∀ s ∈ h.program ++ [seqNum], s ≤ seqNum ∧
      ((pushStore cfg u seqNum i).insts s).isLoad = false ∧
      ((pushStore cfg u seqNum i).insts s).squashed = false := by
    intro s hs
    rcases mem_append.mp hs with hs | hs
    · have hknown := ho.known s hs
      rw [pushStore_insts hlt hknown]
      exact ⟨hknown.trans hlt.le, ho.isStore s hs, ho.live s hs⟩
    · simp only [mem_singleton.mp hs, hw.push_tail seqNum i]
      exact ⟨le_rfl, hi.isStore, hi.live⟩
  refine ⟨?_, fun s hs => (hprogram s hs).2.1, fun s hs => (hprogram s hs).2.2, fun s hs => ?_, ?_,
    fun s hs => (hprogram s hs).1, ho.passed, fun p h1 h2 => ?_⟩
  · rw [f.liveStores_pushStore hw.wb_le, ← append_assoc]
    exact congrArg (· ++ [seqNum]) ho.program
  · exact (congrArg DynInst.isLoad (update_of_ne (Nat.ne_of_gt hs) _ _)).trans
      (ho.fresh s (hlt.trans hs))
  · refine pairwise_append.mpr ⟨ho.sorted, pairwise_singleton _ _, fun a ha b hb => ?_⟩
    rw [mem_singleton.mp hb]
    exact (ho.known a ha).trans_lt hlt
  · rw [(hw.push_at hlt hroom i h1 (h2.trans_le hw.wb_le)).2.1]
    exact ho.sent p h1 h2

theorem openStores_push :
    openStores cfg (pushStore cfg u seqNum i) (f.pushStore seqNum) = openStores cfg u f := by
  ext p
  unfold openStores
  rw [Finset.mem_filter, Finset.mem_filter, Finset.mem_Ico, Finset.mem_Ico]
  change (f.storeHead ≤ p ∧ p < f.storeTail + 1) ∧ _ ↔ (f.storeHead ≤ p ∧ p < f.storeTail) ∧ _
  by_cases hp : f.storeHead ≤ p ∧ p < f.storeTail
  · simp only [hw.push_at hlt hroom i hp.1 hp.2, hp, hp.2.trans (lt_add_one _)]
  · simp only [hp, false_and, iff_false]
    rintro ⟨⟨h1, h2⟩, hc, -⟩
    simp only [show p = f.storeTail by omega, hw.push_tail seqNum i] at hc
    cases hc

theorem Entries.push (he : Entries cfg u h f) (hi : NewStore u i) :
    Entries cfg (pushStore cfg u seqNum i) (h.pushStore seqNum) (f.pushStore seqNum) where
  canWB p h1 h2 := by
    simpa only [hw.push_at hlt hroom i h1 (h2.trans_le hw.wb_le)] using he.canWB p h1 h2
  bound := forall_window (fun p h1 h2 => by
    simpa only [hw.push_at hlt hroom i h1 h2, History.pushStore] using he.bound p h1 h2)
    (by simp only [hw.push_tail seqNum i]; nofun)
  waiting := forall_window (fun p h1 h2 => by
    simpa only [hw.push_at hlt hroom i (hw.head_le.trans h1) h2] using he.waiting p h1 h2)
    (by simp only [hw.push_tail seqNum i])
  unstarted p h1 h2 := by
    rcases Nat.lt_succ_iff_lt_or_eq.mp h2 with h2 | rfl
    · simpa only [hw.push_at hlt hroom i (hw.head_le.trans h1.le) h2] using he.unstarted p h1 h2
    · simp only [hw.push_tail seqNum i]
  noData := forall_window (fun p h1 h2 => by
    simpa only [hw.push_at hlt hroom i (hw.head_le.trans h1) h2] using he.noData p h1 h2)
    (fun _ => by simpa only [hw.push_tail seqNum i] using hi.noData)
  count := by
    rw [openStores_push hw hlt hroom]
    exact he.count

theorem InHand.push (hh : InHand cfg u h f part) :
    InHand cfg (pushStore cfg u seqNum i) (h.pushStore seqNum) (f.pushStore seqNum) part := by
  refine hh.congr rfl rfl rfl rfl rfl (fun hstart hl => ?_) (fun hl hc => ?_)
  · rcases Nat.lt_succ_iff_lt_or_eq.mp hl with hl | heq
    · simpa only [hw.push_at hlt hroom i hw.head_le hl] using hstart hl
    · simp only [heq, hw.push_tail seqNum i]
  · obtain ⟨hcell, hat, hinst⟩ := hw.push_at hlt hroom i hw.head_le hl
    exact ⟨hl.trans (lt_add_one _), hat, by rwa [hcell], packets_congr rfl (by rw [hinst]) Iff.rfl⟩

/-- All loads in the queue are before the new store. -/
theorem Indices.pushStore (hi : Indices cfg u h.committedNum f)
    (hl : LoadWindow cfg u h.lastSeqNum f) (hidx : i.lqIdx = u.loadTail) :
    Indices cfg (pushStore cfg u seqNum i) h.committedNum (f.pushStore seqNum) := by
  refine ⟨fun q h1 h2 hc => ?_, forall_window (fun p h1 h2 => ?_) (fun _ => ?_)⟩
  · have hinst : ((LsqUnit.pushStore cfg u seqNum i).insts (f.loadAt q)).sqIdx =
        (u.insts (f.loadAt q)).sqIdx := by rw [pushStore_insts hlt (hl.known q h1 h2)]
    have hbefore := (hl.known q h1 h2).trans_lt hlt
    rcases hi.load q h1 h2 hc with ⟨hnone, hafter⟩ | ⟨p₀, hp, hp', hsome, hiff⟩
    · refine .inl ⟨hinst.trans hnone, forall_window (fun p h3 h4 => ?_) ?_⟩
      · rw [(hw.push_at hlt hroom i h3 h4).2.1]
        exact hafter p h3 h4
      · rw [(hw.push_tail seqNum i).2.1]
        exact hbefore
    · refine .inr ⟨p₀, hp, hp'.trans (Nat.le_succ _), hinst.trans hsome,
        forall_window (fun p h3 h4 => ?_) ?_⟩
      · rw [(hw.push_at hlt hroom i h3 h4).2.1]
        exact hiff p h3 h4
      · simp only [hw.push_tail seqNum i]
        change seqNum < f.loadAt q ↔ _
        omega
  · obtain ⟨-, hat, hinst⟩ := hw.push_at hlt hroom i h1 h2
    rw [hat, hinst]
    exact hi.store p h1 h2
  · simp only [hw.push_tail seqNum i]
    refine ⟨f.loadTail, hl.le, le_rfl, hidx.trans hl.tail, fun q h3 h4 => ?_⟩
    exact ⟨fun _ => h4, fun _ => (hl.known q h3 h4).trans_lt hlt⟩

end

theorem insertStore_inv (hi : Inv cfg u h f part) (hlt : h.lastSeqNum < seqNum)
    (isStoreConditional isDataPrefetch : Bool) :
    Meets (insertStore cfg u seqNum { isLoad := false, isStoreConditional, isDataPrefetch })
      (· = .storeQueueFull)
      (fun u' => Inv cfg u' { h with lastSeqNum := seqNum, program := h.program ++ [seqNum] }
          (f.pushStore seqNum) part ∧
        (∀ s, s ≤ h.lastSeqNum → u'.insts s = u.insts s) ∧
        u'.memDepViolator = u.memDepViolator ∧ u'.violatedBy = u.violatedBy) := by
  unfold insertStore
  split
  · exact .error rfl
  rename_i hfull
  rw [not_or] at hfull
  have hw := hi.stores
  have ho := hi.order
  have hroom : f.storeTail + 1 < f.storeHead + cfg.sqEntries := by
    refine room_of_ne hw.room (fun heq => hfull.1 ?_)
    rw [hw.tail, hw.head]
    exact heq
  refine .ok ⟨?_, fun s hs => pushStore_insts hlt hs, rfl, rfl⟩
  generalize hi' : ({ ({ isLoad := false, isStoreConditional, isDataPrefetch } : DynInst) with
    lqIdx := u.loadTail, sqIdx := some u.storeTail } : DynInst) = i
  have hnew : NewStore u i := by
    rw [← hi']
    exact ⟨rfl, rfl, rfl, rfl, rfl⟩
  have hindices := hi.indices.pushStore hw hlt hroom hi.loads hnew.lqIdx
  refine ⟨⟨⟨?_, hw.push hlt hroom hnew, hi.written.push hw hlt hroom, ho.push hw hlt hroom hnew,
    hi.entries.push hw hlt hroom hnew, ?_⟩, hi.inHand.push hw hlt hroom, fun hlt' => ?_⟩,
    hindices⟩
  · refine hi.loads.congr hlt.le (fun q h1 h2 => ?_) rfl rfl rfl rfl
    change DynInst.Same _ ((pushStore cfg u seqNum i).insts _)
    rw [pushStore_insts hlt (hi.loads.known q h1 h2)]
    exact .refl _
  · exact hi.service.congr ho rfl rfl
      (fun p h1 h2 => (hw.push_at hlt hroom i h1 (h2.trans_le hw.wb_le)).2.1) rfl rfl rfl
      (fun _ _ => rfl) (fun p h1 h2 => congrArg SQEntry.completed
        (hw.push_at hlt hroom i h1 (h2.trans_le hw.wb_le)).1)
      (fun s hs => congrArg DynInst.isDataPrefetch
        (pushStore_insts hlt (ho.known s (ho.mem_of_advanced hs)))) (fun _ _ => rfl)
  · rcases Nat.lt_succ_iff_lt_or_eq.mp hlt' with hlt' | heq
    · exact (congrArg SQEntry.completed (hw.push_at hlt hroom i le_rfl hlt').1).trans
        (hi.freed hlt')
    · change ((pushStore cfg u seqNum i).storeQueue (f.storeHead % cfg.sqEntries)).completed = false
      simp only [show f.storeHead = f.storeTail from heq, hw.push_tail seqNum i]

end Gem5.O3.LsqUnit
