import Gem5.O3.LsqReachable

namespace Gem5.O3.LsqUnit

open Lib

variable {cfg : LsqConfig} {w : Watched} {u : LsqUnit} {f : Layout} {part : List StorePacket}

/-! Forwarding. -/

/-- A store before a load that `storeWBIdx` has not passed, and that has data for an address. -/
structure Candidate (w : Watched) (seqNum addr st : Nat) (req : Request) (data : Nat → UInt8) :
    Prop where
  program : st ∈ w.program
  older : st < seqNum
  unsent : StoreEvent.advanced st ∉ w.unit.log
  written : w.requests st = some (req, data)
  size : req.size % 256 ≠ 0
  ordered : req.strictlyOrdered = false
  low : req.vaddr ≤ addr
  high : addr < req.vaddr + req.size % 256

/-- The byte that a store writes at an address. -/
def storedByte (req : Request) (data : Nat → UInt8) (addr : Nat) : UInt8 :=
  if req.cacheBlockZero then 0 else data (addr - req.vaddr)

theorem mem_advanced {log : List StoreEvent} {s : Nat} :
    s ∈ advanced log ↔ StoreEvent.advanced s ∈ log := by
  unfold advanced
  rw [List.mem_filterMap]
  constructor
  · rintro ⟨e, he, heq⟩
    cases e <;> cases heq
    exact he
  · exact fun hs => ⟨_, hs, rfl⟩

section

variable (hi : Inv cfg u w.toHistory f part) (hlog : u.log = w.unit.log)
include hi hlog

theorem Inv.find_candidate (hc : Candidate w seqNum addr st req data) :
    ∃ p, f.storeWB ≤ p ∧ p < f.storeTail ∧ f.storeAt p = st ∧ Eligible cfg u f p ∧
      Covers cfg u f p addr := by
  have hmem := hc.program
  rw [hi.order.program, List.mem_append, mem_liveStores] at hmem
  rcases hmem with hadv | ⟨p, hp, hp', rfl⟩
  · rw [mem_advanced, hlog] at hadv
    exact absurd hadv hc.unsent
  have hf := hi.written.filled p hp hp' req data hc.written
  refine ⟨p, hp, hp', rfl, ⟨?_, hf.strict.trans hc.ordered⟩, ?_⟩
  · rw [hf.size]
    exact hc.size
  · unfold Covers
    rw [hf.size, hf.addr]
    exact ⟨hc.low, hc.high⟩

/-- A store in the queue that has data is a candidate, and its entry holds what it writes. -/
theorem Inv.candidate (hp : f.storeWB ≤ p) (hp' : p < f.storeTail)
    (hlt : f.storeAt p < seqNum) (hel : Eligible cfg u f p) (hcov : Covers cfg u f p addr) :
    ∃ req data, Candidate w seqNum addr (f.storeAt p) req data ∧
      Filled cfg (u.storeQueue (p % cfg.sqEntries)) (u.insts (f.storeAt p)) req data := by
  cases hreq : w.requests (f.storeAt p) with
  | none => exact absurd (hi.written.blank p hp hp' hreq).1 hel.1
  | some r =>
    obtain ⟨req, data⟩ := r
    have hf := hi.written.filled p hp hp' req data hreq
    have hsize := hel.1
    have hord := hel.2
    unfold Covers at hcov
    rw [hf.size] at hsize hcov
    rw [hf.strict] at hord
    rw [hf.addr] at hcov
    refine ⟨req, data, ⟨?_, hlt, fun hadv => ?_, hreq, hsize, hord, hcov.1, hcov.2⟩, hf⟩
    · rw [hi.order.program]
      exact List.mem_append_right _ (mem_liveStores.mpr ⟨p, hp, hp', rfl⟩)
    · rw [← hlog, ← mem_advanced] at hadv
      exact lt_irrefl _ (hi.order.lt_of_advanced hadv hp hp')

end

theorem Filled.byte (hf : Filled cfg e i req data) {vaddr size k : Nat} (hk : k < size)
    (hlow : i.effAddr ≤ vaddr)
    (hhigh : vaddr + k < i.effAddr + e.size) :
    (forwardData e (vaddr - i.effAddr) size)[k]? = some (storedByte req data (vaddr + k)) := by
  unfold forwardData storedByte
  rw [hf.zeros]
  cases hz : req.cacheBlockZero with
  | true => simp [hk]
  | false =>
    obtain ⟨hle, hdata⟩ := hf.bytes hz
    rw [hf.size, hf.addr, Nat.mod_eq_of_lt (by omega)] at hhigh
    rw [hf.addr] at hlow ⊢
    have hidx : vaddr - req.vaddr + k = vaddr + k - req.vaddr := by omega
    simp only [Bool.false_eq_true, if_false, List.getElem?_map, List.getElem?_range hk,
      Option.map_some, Option.some.injEq]
    rw [hidx]
    exact hdata _ (by omega)

/-- A load that is forwarded to gets every byte from the youngest store before it that has not
been sent, has data that is not strictly ordered, and has the byte; and a load that goes to the
cache has no such store. -/
theorem forwards_youngest (h : (machine cfg).Reachable w) {seqNum : Nat} {req : Request}
    {env : ReadEnv} (hen : Enabled w (.executeLoad seqNum (.access req) env))
    (hipr : req.mmappedIpr = false) :
    Meets (read cfg req (w.unit.insts seqNum).lqIdx env
        (w.unit.setInst seqNum (DynInst.translated (w.unit.insts seqNum) req)))
      (· = .noStallingLoad) (fun r =>
        (r.1 = .forwarded → ∃ bytes, (r.2.insts seqNum).memData = some bytes ∧
          bytes.length = req.size ∧ ∀ k, k < req.size → ∃ st sreq data,
            Candidate w seqNum (req.vaddr + k) st sreq data ∧
            (∀ st' sreq' data', Candidate w seqNum (req.vaddr + k) st' sreq' data' → st' ≤ st) ∧
            bytes[k]? = some (storedByte sreq data (req.vaddr + k))) ∧
        (r.1 = .sent ∨ r.1 = .blocked → ∀ k, k < req.size → ∀ st sreq data,
          ¬Candidate w seqNum (req.vaddr + k) st sreq data)) := by
  obtain ⟨⟨f, part, hi⟩, hv⟩ := reachable_sound h
  obtain ⟨q, hq, hq', hidx, rfl⟩ := hi.loads.find hen.2
  have hit := (hi.translated hv hq hq' req).1
  generalize hu : w.unit.setInst (f.loadAt q)
    (DynInst.translated (w.unit.insts (f.loadAt q)) req) = u at hit
  have hlog : u.log = w.unit.log := by rw [← hu]; rfl
  rw [hidx]
  refine (read_walked hit hq hq' hen.1 req env hipr).mono (fun r hr => ?_)
  rcases hr with rfl | ⟨high, hhigh, hw, hiff⟩
  · exact ⟨by simp, by simp⟩
  refine ⟨fun hfwd => ?_, fun hcache k hk st sreq data hc => ?_⟩
  · obtain ⟨p, hlow, hlt, hel, hall, hclear, hdata⟩ := hw.forwarded hfwd
    have hptail : p < f.storeTail := by omega
    refine ⟨_, hdata, ?_, fun k hk => ?_⟩
    · unfold forwardData
      split <;> simp
    have hcov := hall (req.vaddr + k) (by omega) (by omega)
    have hfirst := hall req.vaddr (le_rfl) (by omega)
    obtain ⟨sreq, data, hcand, hf⟩ := hit.candidate hlog hlow hptail
      ((hiff p hlow hptail).mpr hlt) hel hcov
    refine ⟨_, sreq, data, hcand, fun st' sreq' data' hc => ?_, hf.byte hk hfirst.1 hcov.2⟩
    -- a younger candidate would have been met first
    obtain ⟨p', h1, h2, rfl, hel', hcov'⟩ := hit.find_candidate hlog hc
    by_contra hgt
    have hpp : p < p' := by
      by_contra hle
      rcases Nat.eq_or_lt_of_le (not_lt.mp hle) with rfl | hlt'
      · exact hgt (le_rfl)
      · have := hit.stores.order p' p (hit.stores.head_le.trans h1) hlt' hptail
        omega
    exact hclear p' hpp ((hiff p' h1 h2).mp hc.older) hel' _ (by omega) (by omega) hcov'
  · obtain ⟨p, h1, h2, rfl, hel, hcov⟩ := hit.find_candidate hlog hc
    exact hw.cache hcache p h1 ((hiff p h1 h2).mp hc.older) hel _ (by omega) (by omega) hcov

def smallLsq : LsqConfig where
  maxLQEntries := 3
  maxSQEntries := 3
  depCheckShift := 4
  checkLoads := true
  cachePorts := 1
  needsTSO := false
  hasUnalignedMemAcc := true
  cacheLineSize := 64
  sqEntries_le := by decide

theorem forwards_youngest_run : ∃ w, (machine smallLsq).Reachable w ∧
    Enabled w (.executeLoad 3 (.access { vaddr := 18, size := 2 }) {}) ∧
    Meets (read smallLsq { vaddr := 18, size := 2 } (w.unit.insts 3).lqIdx {}
        (w.unit.setInst 3 (DynInst.translated (w.unit.insts 3) { vaddr := 18, size := 2 })))
      (· = .noStallingLoad) (fun r =>
        (r.1 = .forwarded → ∃ bytes, (r.2.insts 3).memData = some bytes ∧
          bytes.length = 2 ∧ ∀ k, k < 2 → ∃ st sreq data, Candidate w 3 (18 + k) st sreq data ∧
            (∀ st' sreq' data', Candidate w 3 (18 + k) st' sreq' data' → st' ≤ st) ∧
            bytes[k]? = some (storedByte sreq data (18 + k))) ∧
        (r.1 = .sent ∨ r.1 = .blocked → ∀ k, k < 2 → ∀ st sreq data,
          ¬Candidate w 3 (18 + k) st sreq data)) := by
  obtain ⟨w, hw, hen⟩ := Machine.exists_run (step_of_move smallLsq) (.start rfl)
    [.insertStore 1 false false,
      .executeStore 1 (.access { vaddr := 16, size := 8 }) (fun i => UInt8.ofNat i),
      .insertStore 2 false false,
      .executeStore 2 (.access { vaddr := 18, size := 4 }) (fun i => UInt8.ofNat (100 + i)),
      .insertLoad 3 false]
    (P := fun w => Enabled w (.executeLoad 3 (.access { vaddr := 18, size := 2 }) {})) (by decide)
  exact ⟨w, hw, hen, forwards_youngest hw hen rfl⟩

/-! Memory order violations. -/

/-- A store that accesses memory, with a size other than 0, is checked; one that has a fault, is
predicated false or waits for its translation is not. -/
theorem executeStore_checked (seqNum : Nat) (initiated : Initiated) (data : Nat → UInt8) :
    Meets (executeStore cfg seqNum initiated data u) (fun _ => True)
      (fun r => r.1 = true ↔ ∃ req, initiated = .access req ∧ req.size % 256 ≠ 0) := by
  unfold executeStore
  dsimp only
  split_ifs <;> try trivial
  split
  · trivial
  rename_i storeIdx _
  cases initiated with
  | delayed => simp [Meets]
  | predicatedFalse => simp [Meets]
  | fault strictlyOrdered => dsimp only; split_ifs <;> simp [Meets]
  | access req =>
    dsimp only
    refine Meets.bind (Q := fun v => (v.storeQueue storeIdx).size = req.size % 256) ?_
      (fun v hv => ?_)
    · unfold write
      dsimp only
      split_ifs <;> simp [Meets, setStore]
    · unfold checkStore
      dsimp only
      rw [hv]
      by_cases hsize : req.size % 256 = 0
      · simp [Meets, hsize]
      · rw [if_neg hsize]
        refine Meets.bind (Q := fun _ => True) ?_ (fun v' _ => by simp [Meets, hsize])
        unfold Meets
        split <;> trivial

/-- A store that is checked finds every younger load that it has a byte in common with, unless an
older violator is known; and the violator is a live load after the instruction that has found it. -/
theorem violations_found (h : (machine cfg).Reachable w) :
    (∀ v, w.unit.memDepViolator = some v → (w.unit.insts v).isLoad = true ∧
      (w.unit.insts v).squashed = false ∧ w.unit.violatedBy < v) ∧
    ∀ seqNum initiated data, Enabled w (.executeStore seqNum initiated data) →
      Meets (executeStore cfg seqNum initiated data w.unit) (· = .storeTooLarge) (fun r =>
        (r.1 = true ↔ ∃ req, initiated = .access req ∧ req.size % 256 ≠ 0) ∧
        (r.1 = true → ∀ idx ld, r.2.loadQueue idx = some ld → seqNum < ld →
          (r.2.insts ld).effAddrValid = true → (r.2.insts ld).strictlyOrdered = false →
          Overlap (r.2.insts seqNum) (r.2.insts ld) →
          ∃ v, r.2.memDepViolator = some v ∧ v ≤ ld)) := by
  obtain ⟨⟨f, part, hi⟩, hv⟩ := reachable_sound h
  refine ⟨fun v hset => ?_, fun seqNum initiated data hen => ?_⟩
  · obtain ⟨hload, hlive, hlt, -⟩ := hv v hset
    exact ⟨hload, hlive, hlt⟩
  · refine ((executeStore_inv hi hv hen.1 hen.2.1 (Option.isNone_iff_eq_none.mp hen.2.2) initiated
      data).and (executeStore_checked seqNum initiated data)).mono (fun r hr => ⟨hr.2, ?_⟩)
    exact fun hchecked idx ld hld hlt hvalid hstrict hover =>
      hr.1.2.2.1 hchecked idx ld hld hlt ⟨hvalid, hstrict, hover⟩

/-- The load has gone to the cache before the store, which is then executed and checked. -/
theorem violations_found_run : ∃ w u, (machine smallLsq).Reachable w ∧
    Enabled w (.executeStore 1 (.access { vaddr := 16, size := 8 }) (fun _ => 0)) ∧
    executeStore smallLsq 1 (.access { vaddr := 16, size := 8 }) (fun _ => 0) w.unit =
      .ok (true, u) ∧ ∃ v, u.memDepViolator = some v ∧ v ≤ 2 := by
  obtain ⟨w, hw, hen, hrun⟩ := Machine.exists_run (step_of_move smallLsq) (.start rfl)
    [.insertStore 1 false false, .insertLoad 2 false,
      .executeLoad 2 (.access { vaddr := 18, size := 2 }) {}]
    (P := fun w => Enabled w (.executeStore 1 (.access { vaddr := 16, size := 8 }) (fun _ => 0)) ∧
      (executeStore smallLsq 1 (.access { vaddr := 16, size := 8 }) (fun _ => 0)
        w.unit).toOption.any (fun r => r.2.loadQueue 0 = some 2 ∧
          (r.2.insts 2).effAddrValid = true ∧ (r.2.insts 2).strictlyOrdered = false ∧
          ((r.2.insts 1).effAddr ≤ 18 ∧ 18 < (r.2.insts 1).effAddr + (r.2.insts 1).effSize) ∧
          (r.2.insts 2).effAddr ≤ 18 ∧ 18 < (r.2.insts 2).effAddr + (r.2.insts 2).effSize) = true)
    (by decide)
  obtain ⟨⟨checked, u⟩, hr, hload⟩ := (Option.any_eq_true _ _).mp hrun
  obtain ⟨hcell, hvalid, hstrict, hover⟩ := of_decide_eq_true hload
  have hr := toOption_eq_some.mp hr
  obtain ⟨hiff, hfound⟩ := ((violations_found hw).2 1 _ _ hen).of_ok hr
  obtain rfl : checked = true := hiff.mpr ⟨_, rfl, by decide⟩
  exact ⟨w, u, hw, hen, hr, hfound rfl 0 2 hcell (by decide) hvalid hstrict ⟨18, hover⟩⟩

/-! The queues, and the assertions that no call fails. -/

/-- The loads and the stores lie from head to tail in program order, and no load elsewhere; and an
instruction that has still to commit has noted where the other queue parts into what is older than
it and what is younger. -/
theorem queues_in_program_order (h : (machine cfg).Reachable w) : ∃ f,
    LoadWindow cfg w.unit w.lastSeqNum f ∧ StoreWindow cfg w.unit w.lastSeqNum f ∧
      Indices cfg w.unit w.committedNum f := by
  obtain ⟨⟨f, part, hi⟩, -⟩ := reachable_sound h
  exact ⟨f, hi.loads, hi.stores, hi.indices⟩

/-- A load behind a store. -/
theorem queues_in_program_order_two : ∃ w, (machine smallLsq).Reachable w ∧ w.unit.loads = 1 ∧
    ∃ f, LoadWindow smallLsq w.unit w.lastSeqNum f := by
  obtain ⟨w, hw, hloads⟩ := Machine.exists_run (step_of_move smallLsq) (.start rfl)
    [.insertStore 1 false false, .insertLoad 2 false] (P := fun w => w.unit.loads = 1) (by decide)
  obtain ⟨f, hf, -⟩ := queues_in_program_order hw
  exact ⟨w, hw, hloads, f, hf⟩

/-- Whatever the pipeline and the cache do, no loop of the unit runs on for ever, no count goes
below zero, and the other assertions in the list hold. The null pointer of a stalling load is not
among them: a load that has to wait for a store may find the entry of the one that waits already
empty. -/
theorem assertions_hold (h : (machine cfg).Reachable w) (hen : Enabled w m) :
    ∀ e ∈ [LsqFault.squashedInst, .noLoad, .noStore, .noStores, .effAddrInvalid, .completedStore,
      .storeFault, .noRequest, .committedTwice, .storeData, .negative, .endless],
    apply cfg w m ≠ .error e := by
  intro e he herr
  have hallowed := (apply_sound (reachable_sound h) m hen).of_error herr
  fin_cases he <;> exact hallowed

/-- A store has committed, and is written back with a load behind it. -/
theorem assertions_hold_writeback : ∃ w, (machine smallLsq).Reachable w ∧ w.unit.storesToWB = 1 ∧
    w.unit.loads = 1 ∧ ∀ env, apply smallLsq w (.writebackStores env) ≠ .error .noRequest := by
  obtain ⟨w, hw, hstores, hloads⟩ := Machine.exists_run (step_of_move smallLsq) (.start rfl)
    [.insertStore 1 false false, .insertLoad 2 false,
      .executeStore 1 (.access { vaddr := 16, size := 8 }) (fun _ => 0), .commitStores 1]
    (P := fun w => w.unit.storesToWB = 1 ∧ w.unit.loads = 1) (by decide)
  exact ⟨w, hw, hstores, hloads, fun env => assertions_hold (m := .writebackStores env) hw trivial _
    (by decide)⟩

end Gem5.O3.LsqUnit
