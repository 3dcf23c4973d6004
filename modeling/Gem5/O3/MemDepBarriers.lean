import Gem5.O3.MemDepUnit

namespace Gem5.O3.MemDepUnit

open Lib List Option Function Bool

structure Inserted (u u' : MemDepUnit) (inst : MemInst) : Prop where
  ready : ∀ x ∈ u'.ready, x ∈ u.ready ∨ x = inst.seqNum
  replay : u'.instsToReplay = u.instsToReplay
  memDep : ∀ x, x ≠ inst.seqNum → (u'.entries x).memDepReady = (u.entries x).memDepReady
  depend : ∀ e x, x ∈ (u'.entries e).dependInsts → x ∈ (u.entries e).dependInsts ∨ x = inst.seqNum
  others : ∀ x, x ≠ inst.seqNum → (u'.entries x).inst = (u.entries x).inst
  self : (u'.entries inst.seqNum).inst = inst
  hash : u'.memDepHash = inst.seqNum :: u.memDepHash

namespace Inserted

variable {u u' u'' : MemDepUnit} {inst : MemInst} {predicted : Nat}

theorem insertEntry (u : MemDepUnit) (inst : MemInst) : Inserted u (u.insertEntry inst) inst where
  ready _ hx := .inl hx
  replay := rfl
  memDep x hne := congrArg MemDepEntry.memDepReady (u.entries_setEntry_of_ne hne _)
  depend e x hx := by
    by_cases heq : e = inst.seqNum
    · rw [heq] at hx
      change x ∈ ((u.setEntry inst.seqNum _).entries inst.seqNum).dependInsts at hx
      rw [u.entries_setEntry_self] at hx
      cases hx
    · change x ∈ ((u.setEntry inst.seqNum _).entries e).dependInsts at hx
      rw [u.entries_setEntry_of_ne heq] at hx
      exact .inl hx
  others x hne := congrArg MemDepEntry.inst (u.entries_setEntry_of_ne hne _)
  self := congrArg MemDepEntry.inst (u.entries_setEntry_self _ _)
  hash := rfl

theorem setEntry (h : Inserted u u' inst) (seqNum : Nat) (hinst : e.inst = (u'.entries seqNum).inst)
    (hmem : seqNum ≠ inst.seqNum → e.memDepReady = (u'.entries seqNum).memDepReady)
    (hdepend : ∀ x ∈ e.dependInsts, x ∈ (u'.entries seqNum).dependInsts ∨ x = inst.seqNum) :
    Inserted u (u'.setEntry seqNum e) inst := by
  have hkeep : ∀ x, ((u'.setEntry seqNum e).entries x).inst = (u'.entries x).inst := by
    intro x
    by_cases heq : x = seqNum
    · rw [heq, u'.entries_setEntry_self, hinst]
    · rw [u'.entries_setEntry_of_ne heq]
  refine { h with memDep := fun x hne => ?_, depend := fun e' x hx => ?_,
                  others := fun x hne => (hkeep x).trans (h.others x hne),
                  self := (hkeep _).trans h.self }
  · by_cases heq : x = seqNum
    · rw [heq] at hne ⊢
      rw [u'.entries_setEntry_self, hmem hne, h.memDep seqNum hne]
    · rw [u'.entries_setEntry_of_ne heq, h.memDep x hne]
  by_cases heq : e' = seqNum
  · rw [heq] at hx ⊢
    rw [u'.entries_setEntry_self] at hx
    exact (hdepend x hx).elim (h.depend seqNum x) .inr
  · rw [u'.entries_setEntry_of_ne heq] at hx
    exact h.depend e' x hx

theorem moveToReady (h : Inserted u u' inst) (hmove : u'.moveToReady inst.seqNum = some u'') :
    Inserted u u'' inst := by
  unfold MemDepUnit.moveToReady at hmove
  split_ifs at hmove
  cases hmove
  refine { h with ready := fun x hx => ?_ }
  rcases mem_append.mp hx with hx | hx
  · exact h.ready x hx
  · exact .inr (mem_singleton.mp hx)

theorem insert (h : u.insert inst readyToIssue predicted = some u') : Inserted u u' inst := by
  unfold MemDepUnit.insert at h
  dsimp only at h
  have hentry := Inserted.insertEntry u inst
  have hself := hentry.self
  generalize u.insertEntry inst = v at h hentry hself
  split at h
  · cases h
  split at h
  · cases h
    refine (hentry.setEntry inst.seqNum hself.symm (fun hne => absurd rfl hne)
      (forall_mem_nil _)).setEntry _ rfl (fun _ => rfl) (fun x hx => ?_)
    exact (mem_append.mp hx).imp_right mem_singleton.mp
  have hset : Inserted u (v.setEntry inst.seqNum
      { inst, memDepReady := true, regsReady := readyToIssue }) inst :=
    hentry.setEntry inst.seqNum hself.symm (fun hne => absurd rfl hne) (forall_mem_nil _)
  split at h
  · exact hset.moveToReady h
  · cases h
    exact hset

theorem insertNonSpec (h : u.insertNonSpec inst = some u') : Inserted u u' inst := by
  unfold MemDepUnit.insertNonSpec at h
  split_ifs at h
  cases h
  exact .insertEntry u inst

theorem insertBarrier (u : MemDepUnit) (inst : MemInst) :
    Inserted u (u.insertBarrier inst) inst := by
  unfold MemDepUnit.insertBarrier
  have h := Inserted.insertEntry u inst
  split
  · exact { h with }
  · split
    · exact { h with }
    · exact h

end Inserted

/-- The numbers of all instructions that the unit knows are at most the last one given. -/
structure Bounded (u : MemDepUnit) (last : Nat) : Prop where
  hash : ∀ x ∈ u.memDepHash, x ≤ last
  ready : ∀ x ∈ u.ready, x ≤ last
  replay : ∀ x ∈ u.instsToReplay, x ≤ last
  depend : ∀ e, ∀ x ∈ (u.entries e).dependInsts, x ≤ last

namespace Bounded

variable {u u' : MemDepUnit} {last : Nat} {woken gone : Nat → Prop}

theorem effect (h : Bounded u last) (he : Effect u u' woken gone)
    (hwoken : ∀ x, woken x → x ≤ last) : Bounded u' last where
  hash x hx := h.hash x (he.sub x hx)
  ready x hx := (he.ready x hx).elim (h.ready x) (hwoken x)
  replay x hx := by
    rcases he.replay x hx with hx | hx | hx
    · exact h.replay x hx
    · exact h.ready x hx
    · exact hwoken x hx
  depend e x hx := h.depend e x (he.depend e x hx)

theorem inserted (h : Bounded u last) (hlt : last < inst.seqNum)
    (hi : Inserted u u' inst) : Bounded u' inst.seqNum where
  hash x hx := by
    rw [hi.hash] at hx
    rcases mem_cons.mp hx with hx | hx
    · exact hx.le
    · exact (h.hash x hx).trans hlt.le
  ready x hx := (hi.ready x hx).elim (fun hx => (h.ready x hx).trans hlt.le) Eq.le
  replay x hx := (h.replay x (hi.replay ▸ hx)).trans hlt.le
  depend e x hx := (hi.depend e x hx).elim (fun hx => (h.depend e x hx).trans hlt.le) Eq.le

end Bounded

/-- The barriers in flight are in the hash, and the flag of each kind names the youngest of
those that hold back accesses of this kind. -/
structure Flagged (u : MemDepUnit) (inFlight : List MemInst) (last : Nat) : Prop where
  barrier : ∀ b ∈ inFlight, b.isMemRef = false
  number : ∀ b ∈ inFlight, 0 < b.seqNum ∧ b.seqNum ≤ last
  hash : ∀ b ∈ inFlight, b.seqNum ∈ u.memDepHash
  inst : ∀ b ∈ inFlight, (u.entries b.seqNum).inst = b
  load : ∀ b ∈ inFlight, b.isMemBarrier = true → u.loadBarrier = true ∧ b.seqNum ≤ u.loadBarrierSN ∧
    u.loadBarrierSN ∈ inFlight.map MemInst.seqNum
  store : ∀ b ∈ inFlight, u.storeBarrier = true ∧ b.seqNum ≤ u.storeBarrierSN ∧
    u.storeBarrierSN ∈ inFlight.map MemInst.seqNum

namespace Flagged

variable {u u' : MemDepUnit} {inFlight : List MemInst} {last : Nat} {inst : MemInst}

theorem nil (u : MemDepUnit) (last : Nat) : Flagged u [] last :=
  ⟨forall_mem_nil _, forall_mem_nil _, forall_mem_nil _, forall_mem_nil _,
    forall_mem_nil _, forall_mem_nil _⟩

section

variable (h : Flagged u inFlight last)
include h

/-- Barriers may leave, if the youngest of each kind is not among them unless it is the last. -/
theorem effect (he : Effect u u' woken gone) (hrest : ∀ b, b ∈ rest ↔ b ∈ inFlight ∧ ¬gone b.seqNum)
    (hyoungest : ∀ b ∈ rest, ∀ y ∈ inFlight, b.seqNum ≤ y.seqNum → ¬gone y.seqNum) :
    Flagged u' rest last := by
  have hstay : ∀ b ∈ rest, ∀ sn, b.seqNum ≤ sn → sn ∈ inFlight.map MemInst.seqNum →
      ¬gone sn ∧ sn ∈ rest.map MemInst.seqNum := by
    intro b hb sn hle hsn
    obtain ⟨y, hy, rfl⟩ := mem_map.mp hsn
    have hg := hyoungest b hb y hy hle
    exact ⟨hg, mem_map_of_mem ((hrest y).mpr ⟨hy, hg⟩)⟩
  refine ⟨fun b hb => h.barrier b ((hrest b).mp hb).1, fun b hb => h.number b ((hrest b).mp hb).1,
    fun b hb => ?_, fun b hb => ?_, fun b hb hmem => ?_, fun b hb => ?_⟩
  · obtain ⟨hin, hg⟩ := (hrest b).mp hb
    exact he.hash _ (h.hash b hin) hg
  · rw [he.inst]
    exact h.inst b ((hrest b).mp hb).1
  · obtain ⟨hflag, hle, hsn⟩ := h.load b ((hrest b).mp hb).1 hmem
    obtain ⟨hg, hin⟩ := hstay b hb _ hle hsn
    rw [he.loadSN, he.load hg]
    exact ⟨hflag, hle, hin⟩
  · obtain ⟨hflag, hle, hsn⟩ := h.store b ((hrest b).mp hb).1
    obtain ⟨hg, hin⟩ := hstay b hb _ hle hsn
    rw [he.storeSN, he.store hg]
    exact ⟨hflag, hle, hin⟩

theorem keep (he : Effect u u' woken gone) (hgone : ∀ b ∈ inFlight, ¬gone b.seqNum) :
    Flagged u' inFlight last :=
  h.effect he (fun b => ⟨fun hb => ⟨hb, hgone b hb⟩, And.left⟩) (fun _ _ y hy _ => hgone y hy)

theorem inserted (hlt : last < inst.seqNum) (hi : Inserted u u' inst)
    (hload : u'.loadBarrier = u.loadBarrier ∧ u'.loadBarrierSN = u.loadBarrierSN)
    (hstore : u'.storeBarrier = u.storeBarrier ∧ u'.storeBarrierSN = u.storeBarrierSN) :
    Flagged u' inFlight inst.seqNum := by
  have hne : ∀ b ∈ inFlight, b.seqNum ≠ inst.seqNum := fun b hb =>
    ((h.number b hb).2.trans_lt hlt).ne
  refine ⟨h.barrier, fun b hb => ⟨(h.number b hb).1, (h.number b hb).2.trans hlt.le⟩,
    fun b hb => ?_, fun b hb => ?_, fun b hb hmem => ?_, fun b hb => ?_⟩
  · rw [hi.hash]
    exact .tail _ (h.hash b hb)
  · rw [hi.others _ (hne b hb)]
    exact h.inst b hb
  · rw [hload.1, hload.2]
    exact h.load b hb hmem
  · rw [hstore.1, hstore.2]
    exact h.store b hb

theorem insertBarrier (hlt : last < inst.seqNum) (hbarrier : inst.isMemRef = false)
    (hkind : (inst.isMemBarrier || inst.isWriteBarrier) = true) :
    Flagged (u.insertBarrier inst) (inst :: inFlight) inst.seqNum := by
  have hi := Inserted.insertBarrier u inst
  have hstore : (u.insertBarrier inst).storeBarrier = true ∧
      (u.insertBarrier inst).storeBarrierSN = inst.seqNum := by
    unfold MemDepUnit.insertBarrier
    split
    · exact ⟨rfl, rfl⟩
    · rename_i hmem
      rw [if_pos (by simpa [hmem] using hkind)]
      exact ⟨rfl, rfl⟩
  have hle : ∀ b ∈ inst :: inFlight, b.seqNum ≤ inst.seqNum := by
    intro b hb
    rcases mem_cons.mp hb with rfl | hb
    · exact le_rfl
    · exact (h.number b hb).2.trans hlt.le
  refine ⟨forall_mem_cons.mpr ⟨hbarrier, h.barrier⟩, fun b hb => ⟨?_, hle b hb⟩, fun b hb => ?_,
    fun b hb => ?_, fun b hb hmem => ?_, fun b hb => ?_⟩
  · rcases mem_cons.mp hb with rfl | hb
    · omega
    · exact (h.number b hb).1
  · rw [hi.hash]
    rcases mem_cons.mp hb with rfl | hb
    · exact mem_cons_self
    · exact .tail _ (h.hash b hb)
  · rcases mem_cons.mp hb with rfl | hb
    · exact hi.self
    · rw [hi.others _ ((h.number b hb).2.trans_lt hlt).ne]
      exact h.inst b hb
  · by_cases hnew : inst.isMemBarrier = true
    · have hload : (u.insertBarrier inst).loadBarrier = true ∧
          (u.insertBarrier inst).loadBarrierSN = inst.seqNum := by
        unfold MemDepUnit.insertBarrier
        rw [if_pos hnew]
        exact ⟨rfl, rfl⟩
      rw [hload.2]
      exact ⟨hload.1, hle b hb, mem_map_of_mem mem_cons_self⟩
    -- a write barrier leaves the flag for loads alone
    have hload : (u.insertBarrier inst).loadBarrier = u.loadBarrier ∧
        (u.insertBarrier inst).loadBarrierSN = u.loadBarrierSN := by
      unfold MemDepUnit.insertBarrier
      rw [if_neg hnew]
      split <;> exact ⟨rfl, rfl⟩
    rcases mem_cons.mp hb with rfl | hb
    · exact absurd hmem hnew
    · obtain ⟨hflag, hyoungest, hin⟩ := h.load b hb hmem
      rw [hload.1, hload.2, map_cons]
      exact ⟨hflag, hyoungest, .tail _ hin⟩
  · rw [hstore.2]
    exact ⟨hstore.1, hle b hb, mem_map_of_mem mem_cons_self⟩

end

end Flagged

/-- An instruction that only the completion of one barrier can release. -/
structure Waiting (u : MemDepUnit) (barrier x : Nat) : Prop where
  ready : x ∉ u.ready
  replay : x ∉ u.instsToReplay
  memDep : (u.entries x).memDepReady = false
  depend : ∀ e, x ∈ (u.entries e).dependInsts → e = barrier

namespace Waiting

variable {u u' : MemDepUnit} {barrier x : Nat}

theorem effect (h : Waiting u barrier x) (he : Effect u u' woken gone)
    (hwoken : ¬woken x) : Waiting u' barrier x where
  ready hx := (he.ready x hx).elim h.ready hwoken
  replay hx := by
    rcases he.replay x hx with hx | hx | hx
    · exact h.replay hx
    · exact h.ready hx
    · exact hwoken hx
  memDep := by
    rw [eq_false_iff]
    intro hx
    rcases he.memDep x hx with hx | hx
    · exact false_ne_true (h.memDep.symm.trans hx)
    · exact hwoken hx
  depend e hx := h.depend e (he.depend e x hx)

theorem inserted (h : Waiting u barrier x) (hi : Inserted u u' inst)
    (hne : x ≠ inst.seqNum) : Waiting u' barrier x where
  ready hx := (hi.ready x hx).elim h.ready hne
  replay hx := h.replay (hi.replay ▸ hx)
  memDep := (hi.memDep x hne).trans h.memDep
  depend e hx := (hi.depend e x hx).elim (h.depend e) (fun hx => absurd hx hne)

theorem insert {predicted last : Nat} (hu : Bounded u last) (hlt : last < inst.seqNum)
    (h : u.insert inst readyToIssue predicted = some u')
    (hzero : u.producingStore inst predicted ≠ 0)
    (hhash : u.producingStore inst predicted ∈ u.memDepHash) :
    Waiting u' (u.producingStore inst predicted) inst.seqNum := by
  have hne : inst.seqNum ≠ u.producingStore inst predicted := by
    have := hu.hash _ hhash
    omega
  have hnew : ∀ e, inst.seqNum ∉ (u.entries e).dependInsts := fun e hx =>
    absurd (hu.depend e _ hx) (by omega)
  unfold MemDepUnit.insert at h
  split at h
  · cases h
  rw [if_pos ⟨hzero, .tail _ hhash⟩] at h
  cases h
  refine ⟨fun hx => absurd (hu.ready _ hx) (by omega), fun hx => absurd (hu.replay _ hx) (by omega),
    ?_, fun e hx => ?_⟩
  · rw [entries_setEntry_of_ne _ hne, entries_setEntry_self]
  by_contra he
  rw [entries_setEntry_of_ne _ he] at hx
  by_cases hself : e = inst.seqNum
  · rw [hself, entries_setEntry_self] at hx
    cases hx
  · rw [entries_setEntry_of_ne _ hself] at hx
    change inst.seqNum ∈ ((u.setEntry inst.seqNum _).entries e).dependInsts at hx
    rw [entries_setEntry_of_ne _ hself] at hx
    exact hnew e hx

end Waiting

variable {readyToIssue : Bool}

theorem insert_flags {u u' : MemDepUnit} (h : u.insert inst readyToIssue predicted = some u') :
    (u'.loadBarrier = u.loadBarrier ∧ u'.loadBarrierSN = u.loadBarrierSN) ∧
      u'.storeBarrier = u.storeBarrier ∧ u'.storeBarrierSN = u.storeBarrierSN := by
  unfold MemDepUnit.insert at h
  dsimp only at h
  split at h
  · cases h
  split at h
  · cases h
    exact ⟨⟨rfl, rfl⟩, rfl, rfl⟩
  · split at h
    · have he := Effect.moveToReady h (fun _ => False)
      exact ⟨⟨he.load id, he.loadSN⟩, he.store id, he.storeSN⟩
    · cases h
      exact ⟨⟨rfl, rfl⟩, rfl, rfl⟩

/-- The invariant of the runs in which barriers leave in order: an instruction waits for a
barrier that is in flight and no older than any barrier that holds it back. -/
structure Guarded (w : Watched) : Prop where
  bounded : Bounded w.unit w.lastSeqNum
  flagged : Flagged w.unit w.inFlight w.lastSeqNum
  guards : ∀ x, ∀ g ∈ w.guards x, g ≤ w.lastSeqNum
  known : ∀ x, w.lastSeqNum < x → w.guards x = []
  nonSpec : ∀ x ∈ w.nonSpec, x ≤ w.lastSeqNum ∧ w.guards x = []
  waiting : ∀ x, ∀ g ∈ w.guards x, g ∈ w.inFlight.map MemInst.seqNum →
    ∃ barrier ∈ w.inFlight.map MemInst.seqNum,
      (∀ g' ∈ w.guards x, g' ≤ barrier) ∧ Waiting w.unit barrier x

namespace Guarded

variable {w : Watched}

theorem ordered (h : Guarded w) : Ordered w := by
  intro x hx g hg hin
  obtain ⟨_, _, _, hwait⟩ := h.waiting x g hg hin
  exact hwait.ready hx

theorem start : Guarded empty where
  bounded := ⟨forall_mem_nil _, forall_mem_nil _, forall_mem_nil _, fun _ => forall_mem_nil _⟩
  flagged := .nil _ _
  guards _ := forall_mem_nil _
  known _ _ := rfl
  nonSpec := forall_mem_nil _
  waiting _ := nofun

section

variable (h : Guarded w)
include h

/-- An operation that wakes no instruction that waits, and no barrier leaves. -/
theorem effect (he : Effect w.unit u woken gone) (hgone : ∀ b ∈ w.inFlight, ¬gone b.seqNum)
    (hle : ∀ x, woken x → x ≤ w.lastSeqNum)
    (hwoken : ∀ x barrier, barrier ∈ w.inFlight.map MemInst.seqNum → w.guards x ≠ [] →
      Waiting w.unit barrier x → ¬woken x) : Guarded { w with unit := u } where
  bounded := h.bounded.effect he hle
  flagged := h.flagged.keep he hgone
  guards := h.guards
  known := h.known
  nonSpec := h.nonSpec
  waiting x g hg hin := by
    obtain ⟨barrier, hb, hall, hwait⟩ := h.waiting x g hg hin
    exact ⟨barrier, hb, hall, hwait.effect he (hwoken x barrier hb (ne_nil_of_mem hg) hwait)⟩

/-- The oldest barriers leave, and what waits for younger ones is not woken. -/
theorem leave
    (he : Effect w.unit u woken gone) (hrest : ∀ b, b ∈ rest ↔ b ∈ w.inFlight ∧ ¬gone b.seqNum)
    (hold : ∀ b ∈ rest, ∀ y ∈ w.inFlight, b.seqNum ≤ y.seqNum → ¬gone y.seqNum)
    (hle : ∀ x, woken x → x ≤ w.lastSeqNum)
    (hwoken : ∀ x barrier, ¬gone barrier → Waiting w.unit barrier x → ¬woken x) :
    Guarded { w with unit := u, inFlight := rest } where
  bounded := h.bounded.effect he hle
  flagged := h.flagged.effect he hrest hold
  guards := h.guards
  known := h.known
  nonSpec := h.nonSpec
  waiting x g hg hin := by
    obtain ⟨b, hb, rfl⟩ := mem_map.mp hin
    obtain ⟨barrier, hbarrier, hall, hwait⟩ := h.waiting x b.seqNum hg
      (mem_map_of_mem ((hrest b).mp hb).1)
    obtain ⟨y, hy, rfl⟩ := mem_map.mp hbarrier
    have hg' := hold b hb y hy (hall _ hg)
    exact ⟨y.seqNum, mem_map_of_mem ((hrest y).mpr ⟨hy, hg'⟩), hall,
      hwait.effect he (hwoken x y.seqNum hg' hwait)⟩

theorem insert {u : MemDepUnit} (hu : w.unit.insert inst readyToIssue predicted = some u)
    (hlt : w.lastSeqNum < inst.seqNum) (hkind : inst.isLoad ≠ inst.isStore) :
    Guarded { w with
      unit := u
      lastSeqNum := inst.seqNum
      guards := update w.guards inst.seqNum
        ((w.inFlight.filter (fun b => holdsBack b inst)).map MemInst.seqNum) } := by
  have hi := Inserted.insert hu
  obtain ⟨hload, hstore⟩ := insert_flags hu
  have hother : ∀ {x}, x ≠ inst.seqNum → update w.guards inst.seqNum
      ((w.inFlight.filter (fun b => holdsBack b inst)).map MemInst.seqNum) x = w.guards x :=
    fun hne => update_of_ne hne _ _
  have hself : update w.guards inst.seqNum
      ((w.inFlight.filter (fun b => holdsBack b inst)).map MemInst.seqNum) inst.seqNum = _ :=
    update_self _ _ _
  refine ⟨h.bounded.inserted hlt hi, h.flagged.inserted hlt hi hload hstore, fun x g hg => ?_,
    fun x hx => ?_, fun x hx => ?_, fun x g hg hin => ?_⟩
  · dsimp only at hg ⊢
    by_cases hx : x = inst.seqNum
    · rw [hx, hself] at hg
      obtain ⟨b, hb, rfl⟩ := mem_map.mp hg
      exact (h.flagged.number b (mem_filter.mp hb).1).2.trans hlt.le
    · rw [hother hx] at hg
      exact (h.guards x g hg).trans hlt.le
  · dsimp only at hx ⊢
    rw [hother hx.ne']
    exact h.known x (hlt.trans hx)
  · obtain ⟨hle, hnil⟩ := h.nonSpec x hx
    dsimp only
    rw [hother (hle.trans_lt hlt).ne]
    exact ⟨hle.trans hlt.le, hnil⟩
  · dsimp only at hg hin ⊢
    obtain rfl | hx := eq_or_ne x inst.seqNum
    · rw [hself] at hg ⊢
      obtain ⟨b, hb, rfl⟩ := mem_map.mp hg
      obtain ⟨hb, hholds⟩ := mem_filter.mp hb
      -- the flag of its kind is set, and names the youngest barrier that holds it back
      have hproducer : w.unit.producingStore inst predicted ∈ w.inFlight.map MemInst.seqNum ∧
          ∀ b ∈ w.inFlight, holdsBack b inst = true →
            b.seqNum ≤ w.unit.producingStore inst predicted := by
        unfold producingStore
        by_cases hl : inst.isLoad = true
        · have hs : inst.isStore = false := by
            rw [eq_false_iff]
            exact fun hs => hkind (hl.trans hs.symm)
          simp only [holdsBack, hl, hs, Bool.true_and, Bool.or_false] at hholds ⊢
          obtain ⟨hflag, -, hsn⟩ := h.flagged.load b hb hholds
          rw [if_pos hflag]
          exact ⟨hsn, fun b' hb' hmem => (h.flagged.load b' hb' hmem).2.1⟩
        · have hs : inst.isStore = true := by
            by_contra hs
            exact hkind (by rw [not_eq_true] at hl hs; rw [hl, hs])
          obtain ⟨hflag, -, hsn⟩ := h.flagged.store b hb
          rw [not_eq_true] at hl
          simp only [hl, hs, hflag, Bool.false_and, Bool.and_self, if_true]
          exact ⟨hsn, fun b' hb' _ => (h.flagged.store b' hb').2.1⟩
      obtain ⟨hsn, hyoungest⟩ := hproducer
      refine ⟨_, hsn, fun g hg => ?_, ?_⟩
      · obtain ⟨b', hb', rfl⟩ := mem_map.mp hg
        exact hyoungest b' (mem_filter.mp hb').1 (mem_filter.mp hb').2
      obtain ⟨y, hy, hyeq⟩ := mem_map.mp hsn
      refine Waiting.insert h.bounded hlt hu ?_ ?_
      · rw [← hyeq]
        exact (h.flagged.number y hy).1.ne'
      · rw [← hyeq]
        exact h.flagged.hash y hy
    · rw [hother hx] at hg ⊢
      obtain ⟨barrier, hbarrier, hall, hwait⟩ := h.waiting x g hg hin
      exact ⟨barrier, hbarrier, hall, hwait.inserted hi hx⟩

theorem insertNonSpec (hu : w.unit.insertNonSpec inst = some u) (hlt : w.lastSeqNum < inst.seqNum) :
    Guarded { w with
      unit := u, lastSeqNum := inst.seqNum, nonSpec := inst.seqNum :: w.nonSpec } := by
  have hi := Inserted.insertNonSpec hu
  have hflags : (u.loadBarrier = w.unit.loadBarrier ∧ u.loadBarrierSN = w.unit.loadBarrierSN) ∧
      u.storeBarrier = w.unit.storeBarrier ∧ u.storeBarrierSN = w.unit.storeBarrierSN := by
    unfold MemDepUnit.insertNonSpec at hu
    split_ifs at hu
    cases hu
    exact ⟨⟨rfl, rfl⟩, rfl, rfl⟩
  refine ⟨h.bounded.inserted hlt hi, h.flagged.inserted hlt hi hflags.1 hflags.2,
    fun x g hg => (h.guards x g hg).trans hlt.le, fun x hx => h.known x (hlt.trans hx),
    fun x hx => ?_, fun x g hg hin => ?_⟩
  · rcases mem_cons.mp hx with rfl | hx
    · exact ⟨le_rfl, h.known _ hlt⟩
    · exact ⟨(h.nonSpec x hx).1.trans hlt.le, (h.nonSpec x hx).2⟩
  · obtain ⟨barrier, hbarrier, hall, hwait⟩ := h.waiting x g hg hin
    refine ⟨barrier, hbarrier, hall, hwait.inserted hi (fun hx => ?_)⟩
    have hnil := h.known x (hx ▸ hlt)
    rw [hnil] at hg
    cases hg

theorem insertBarrier (hlt : w.lastSeqNum < inst.seqNum)
    (hbarrier : inst.isMemRef = false) (hkind : (inst.isMemBarrier || inst.isWriteBarrier) = true) :
    Guarded { w with
      unit := w.unit.insertBarrier inst
      lastSeqNum := inst.seqNum
      inFlight := inst :: w.inFlight } := by
  have hi := Inserted.insertBarrier w.unit inst
  refine ⟨h.bounded.inserted hlt hi, h.flagged.insertBarrier hlt hbarrier hkind,
    fun x g hg => (h.guards x g hg).trans hlt.le, fun x hx => h.known x (hlt.trans hx),
    fun x hx => ⟨(h.nonSpec x hx).1.trans hlt.le, (h.nonSpec x hx).2⟩, fun x g hg hin => ?_⟩
  -- the new barrier holds back nothing that is there already
  have hold : g ∈ w.inFlight.map MemInst.seqNum := by
    rcases mem_cons.mp hin with hg' | hin
    · have := h.guards x g hg
      omega
    · exact hin
  obtain ⟨barrier, hb, hall, hwait⟩ := h.waiting x g hg hold
  refine ⟨barrier, .tail _ hb, hall, hwait.inserted hi (fun hx => ?_)⟩
  have hnil := h.known x (hx ▸ hlt)
  rw [hnil] at hg
  cases hg

theorem completeBarrier (hu : w.unit.completeBarrier seqNum = some u)
    (horder : ∀ b ∈ w.inFlight, seqNum ≤ b.seqNum) :
    Guarded { w with unit := u, inFlight := w.inFlight.filter (fun b => b.seqNum ≠ seqNum) } := by
  refine h.leave (Effect.completeBarrier hu) (fun b => by simp) (fun b hb y hy hle heq => ?_)
    (fun x hx => h.bounded.depend seqNum x hx) (fun x barrier hne hwait hx => ?_)
  · obtain ⟨hin, hne⟩ := mem_filter.mp hb
    have := horder b hin
    have hne : b.seqNum ≠ seqNum := of_decide_eq_true hne
    omega
  · exact hne (hwait.depend seqNum hx).symm

theorem squash (hu : w.unit.squash squashedNum = some u)
    (hall : (∀ b ∈ w.inFlight, b.seqNum ≤ squashedNum) ∨ ∀ b ∈ w.inFlight, squashedNum < b.seqNum) :
    Guarded
      { w with
        unit := u
        inFlight := w.inFlight.filter (fun b => b.seqNum ≤ squashedNum) } := by
  refine h.leave (Effect.squash hu (fun _ => False)) (fun b => by simp)
    (fun b hb y hy hle hlt => ?_)
    (fun _ hx => hx.elim) (fun _ _ _ _ hx => hx)
  obtain ⟨hin, hb⟩ := mem_filter.mp hb
  have hb : b.seqNum ≤ squashedNum := of_decide_eq_true hb
  rcases hall with hkeep | hdrop
  · have := hkeep y hy
    omega
  · have := hdrop b hin
    omega

theorem access_ne (hmem : (w.unit.entries seqNum).inst.isMemRef = true) :
    ∀ b ∈ w.inFlight, b.seqNum ≠ seqNum := by
  intro b hb heq
  have hb' := h.flagged.barrier b hb
  rw [← h.flagged.inst b hb, heq, hmem] at hb'
  cases hb'

theorem step (hstep : move w m = some w') (hcond : BarriersInOrder w m) : Guarded w' := by
  unfold move at hstep
  split at hstep
  case isFalse => cases hstep
  case isTrue hen =>
  cases m with
  | insert inst readyToIssue predicted =>
    obtain ⟨u, hu, rfl⟩ := map_eq_some_iff.mp hstep
    exact h.insert hu hen.1 hen.2
  | insertNonSpec inst =>
    obtain ⟨u, hu, rfl⟩ := map_eq_some_iff.mp hstep
    exact h.insertNonSpec hu hen.1
  | insertBarrier inst =>
    cases hstep
    exact h.insertBarrier hen.1 hen.2.1 hen.2.2
  | regsReady seqNum =>
    obtain ⟨u, hu, rfl⟩ := map_eq_some_iff.mp hstep
    refine h.effect (Effect.regsReady hu (fun _ => False)) (fun _ _ => id)
      (fun x hx => h.bounded.hash x hx.2.1)
      (fun x _ _ _ hwait hx => ?_)
    exact false_ne_true (hwait.memDep.symm.trans hx.2.2)
  | nonSpecInstReady seqNum =>
    obtain ⟨u, hu, rfl⟩ := map_eq_some_iff.mp hstep
    obtain ⟨hle, hnil⟩ := h.nonSpec seqNum hen
    refine h.effect (Effect.nonSpecInstReady hu (fun _ => False)) (fun _ _ => id)
      (fun x hx => hx ▸ hle)
      (fun x _ _ hne _ hx => hne (hx ▸ hnil))
  | reschedule seqNum =>
    cases hstep
    exact h.effect (Effect.reschedule _ hen (fun _ => False) (fun _ => False)) (fun _ _ => id)
      (fun _ hx => hx.elim)
      (fun _ _ _ _ _ hx => hx)
  | replay =>
    obtain ⟨u, hu, rfl⟩ := map_eq_some_iff.mp hstep
    exact h.effect (Effect.replayLoop hu (fun _ => False)) (fun _ _ => id) h.bounded.replay
      (fun x _ _ _ hwait => hwait.replay)
  | wakeDependents seqNum =>
    obtain ⟨u, hu, rfl⟩ := map_eq_some_iff.mp hstep
    refine h.effect (Effect.wakeDependents hu (fun _ => False)) (fun _ _ => id)
      (h.bounded.depend seqNum)
      (fun x barrier hb _ hwait hx => ?_)
    obtain ⟨b, hin, rfl⟩ := mem_map.mp hb
    exact h.access_ne hen b hin (hwait.depend seqNum hx).symm
  | completed seqNum =>
    obtain ⟨u, hu, rfl⟩ := map_eq_some_iff.mp hstep
    exact h.effect (Effect.completed hu (fun _ => False)) (h.access_ne hen) (fun _ hx => hx.elim)
      (fun _ _ _ _ _ hx => hx)
  | completeBarrier seqNum =>
    obtain ⟨u, hu, rfl⟩ := map_eq_some_iff.mp hstep
    exact h.completeBarrier hu hcond
  | squash squashedNum =>
    obtain ⟨u, hu, rfl⟩ := map_eq_some_iff.mp hstep
    exact h.squash hu hcond

end

end Guarded

/-- In every run in which barriers complete in order and a squash does not part them, no access
is ready while a barrier before it that holds it back is in flight. -/
theorem barriers_order_accesses {w : Watched} (h : (machine.restrict BarriersInOrder).Reachable w) :
    Ordered w := by
  refine Guarded.ordered (h.invariant ?_ ?_)
  · intro k hk
    rw [show k = empty from hk]
    exact .start
  · exact fun k m k' hk hstep => hk.step hstep.1 hstep.2

/-- A load and a store behind two barriers, of which the older one has completed. -/
theorem barriers_order_accesses_completed : ∃ w, (machine.restrict BarriersInOrder).Reachable w ∧
      (w.inFlight.map MemInst.seqNum = [2] ∧ w.guards 4 = [2, 1] ∧ w.unit.ready = [5]) ∧
        Ordered w := by
  obtain ⟨w, hr, hw⟩ := Machine.exists_run (M := machine.restrict BarriersInOrder)
    (Machine.restrict_step (f := move) (fun _ _ _ h => h) BarriersInOrder) (.start rfl)
    [.insertBarrier ⟨1, false, false, true, false⟩, .insertBarrier ⟨2, false, false, false, true⟩,
      .insert ⟨4, false, true, false, false⟩ true 0, .completeBarrier 1,
      .insert ⟨5, true, false, false, false⟩ true 0]
    (P := fun w => w.inFlight.map MemInst.seqNum = [2] ∧ w.guards 4 = [2, 1] ∧ w.unit.ready = [5])
    (by decide)
  exact ⟨w, hr, hw, barriers_order_accesses hr⟩

end Gem5.O3.MemDepUnit
