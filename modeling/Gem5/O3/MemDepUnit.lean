import Gem5.Lib.Transition

namespace Gem5.O3

open Lib List Option Function

/-- An instruction as the memory dependence unit sees it. -/
structure MemInst where
  seqNum : Nat
  isLoad : Bool
  isStore : Bool
  isMemBarrier : Bool
  isWriteBarrier : Bool
deriving DecidableEq

def MemInst.isMemRef (inst : MemInst) : Bool := inst.isLoad || inst.isStore

/-- A dependence entry. Others are named by the number of their instruction. -/
structure MemDepEntry where
  inst : MemInst
  dependInsts : List Nat := []
  regsReady : Bool := false
  memDepReady : Bool := false
  squashed : Bool := false

/-- The unit of one thread. An entry outlives its place in the hash while others depend on it.
`ready` lists the calls of `addReadyMemInst`. -/
structure MemDepUnit where
  memDepHash : List Nat
  entries : Nat → MemDepEntry
  instList : List Nat
  instsToReplay : List Nat
  loadBarrier : Bool
  loadBarrierSN : Nat
  storeBarrier : Bool
  storeBarrierSN : Nat
  ready : List Nat

namespace MemDepUnit

section

variable (u : MemDepUnit)
include u

def setEntry (seqNum : Nat) (e : MemDepEntry) : MemDepUnit :=
  { u with entries := Function.update u.entries seqNum e }

@[simp]
theorem entries_setEntry_self (seqNum : Nat) (e : MemDepEntry) :
    (u.setEntry seqNum e).entries seqNum = e :=
  update_self _ _ _

@[simp]
theorem entries_setEntry_of_ne (hne : x ≠ seqNum)
    (e : MemDepEntry) : (u.setEntry seqNum e).entries x = u.entries x :=
  update_of_ne hne _ _

def insertEntry (inst : MemInst) : MemDepUnit :=
  { u.setEntry inst.seqNum { inst } with
    memDepHash := inst.seqNum :: u.memDepHash
    instList := u.instList ++ [inst.seqNum] }

def moveToReady (seqNum : Nat) : Option MemDepUnit :=
  if (u.entries seqNum).squashed then none else some { u with ready := u.ready ++ [seqNum] }

/-- The barrier, or else the store, that an instruction waits for. `predicted` is the answer of
the dependence predictor. -/
def producingStore (inst : MemInst) (predicted : Nat) : Nat :=
  if inst.isLoad && u.loadBarrier then u.loadBarrierSN
  else if inst.isStore && u.storeBarrier then u.storeBarrierSN
  else predicted

def insert (inst : MemInst) (readyToIssue : Bool) (predicted : Nat) : Option MemDepUnit :=
  let producer := u.producingStore inst predicted
  let u := u.insertEntry inst
  if !inst.isMemRef then none
  else if producer ≠ 0 ∧ producer ∈ u.memDepHash then
    let u := u.setEntry inst.seqNum { inst, regsReady := readyToIssue }
    let e := u.entries producer
    some (u.setEntry producer { e with dependInsts := e.dependInsts ++ [inst.seqNum] })
  else
    let u := u.setEntry inst.seqNum { inst, memDepReady := true, regsReady := readyToIssue }
    if readyToIssue then u.moveToReady inst.seqNum else some u

def insertNonSpec (inst : MemInst) : Option MemDepUnit :=
  if inst.isMemRef then some (u.insertEntry inst) else none

def insertBarrier (inst : MemInst) : MemDepUnit :=
  let u := u.insertEntry inst
  if inst.isMemBarrier then
    { u with
      loadBarrier := true
      loadBarrierSN := inst.seqNum
      storeBarrier := true
      storeBarrierSN := inst.seqNum }
  else if inst.isWriteBarrier then
    { u with storeBarrier := true, storeBarrierSN := inst.seqNum }
  else u

def regsReady (seqNum : Nat) : Option MemDepUnit :=
  if seqNum ∈ u.memDepHash then
    let e := u.entries seqNum
    let u := u.setEntry seqNum { e with regsReady := true }
    if e.memDepReady then u.moveToReady seqNum else some u
  else none

def nonSpecInstReady (seqNum : Nat) : Option MemDepUnit :=
  if seqNum ∈ u.memDepHash then u.moveToReady seqNum else none

def reschedule (seqNum : Nat) : MemDepUnit :=
  { u with instsToReplay := u.instsToReplay ++ [seqNum] }

end

def replayLoop : List Nat → MemDepUnit → Option MemDepUnit
  | [], u => some { u with instsToReplay := [] }
  | seqNum :: rest, u =>
    if seqNum ∈ u.memDepHash then (u.moveToReady seqNum).bind (replayLoop rest) else none

section

variable (u : MemDepUnit)
include u

def replay : Option MemDepUnit := replayLoop u.instsToReplay u

def completed (seqNum : Nat) : Option MemDepUnit :=
  if seqNum ∈ u.memDepHash then
    some { u with
      memDepHash := u.memDepHash.erase seqNum
      instList := u.instList.erase seqNum }
  else none

def wake (seqNum : Nat) : Option MemDepUnit :=
  let e := u.entries seqNum
  if e.regsReady && !e.squashed then u.moveToReady seqNum
  else some (u.setEntry seqNum { e with memDepReady := true })

/-- `wakeDependents`: only stores and barriers have dependents. -/
def wakeDependents (seqNum : Nat) : Option MemDepUnit :=
  let inst := (u.entries seqNum).inst
  if !inst.isStore && !inst.isMemBarrier && !inst.isWriteBarrier then some u
  else if seqNum ∈ u.memDepHash then
    ((u.entries seqNum).dependInsts.foldlM wake u).map (fun u =>
      u.setEntry seqNum { u.entries seqNum with dependInsts := [] })
  else none

def clearLoadBarrier (seqNum : Nat) : MemDepUnit :=
  if u.loadBarrierSN = seqNum then { u with loadBarrier := false } else u

def clearStoreBarrier (seqNum : Nat) : MemDepUnit :=
  if u.storeBarrierSN = seqNum then { u with storeBarrier := false } else u

def completeBarrier (seqNum : Nat) : Option MemDepUnit := do
  let inst := (u.entries seqNum).inst
  let u ← u.wakeDependents seqNum
  let u ← u.completed seqNum
  if inst.isMemBarrier then some ((u.clearLoadBarrier seqNum).clearStoreBarrier seqNum)
  else if inst.isWriteBarrier then some (u.clearStoreBarrier seqNum)
  else some u

def squashInst (seqNum : Nat) : Option MemDepUnit :=
  let u := (u.clearLoadBarrier seqNum).clearStoreBarrier seqNum
  if seqNum ∈ u.memDepHash then
    some { u.setEntry seqNum { u.entries seqNum with squashed := true } with
      memDepHash := u.memDepHash.erase seqNum
      instList := u.instList.erase seqNum }
  else none

end

def squashLoop (squashedNum : Nat) : List Nat → MemDepUnit → Option MemDepUnit
  | [], u => some u
  | seqNum :: rest, u =>
    if squashedNum < seqNum then (u.squashInst seqNum).bind (squashLoop squashedNum rest)
      else some u

def squash (u : MemDepUnit) (squashedNum : Nat) : Option MemDepUnit :=
  squashLoop squashedNum u.instList.reverse
    { u with instsToReplay := u.instsToReplay.filter (· ≤ squashedNum) }

/-! Runs, with what is in flight. -/

/-- A unit, the last number given to an instruction, the barriers in flight, for each
instruction of `insert` the barriers that were in flight before it and hold it back, and the
instructions of `insertNonSpec`. -/
structure Watched where
  unit : MemDepUnit
  lastSeqNum : Nat
  inFlight : List MemInst
  guards : Nat → List Nat
  nonSpec : List Nat

/-- A memory barrier holds back loads and stores, a write barrier only stores. -/
def holdsBack (barrier inst : MemInst) : Bool :=
  (inst.isLoad && barrier.isMemBarrier) || inst.isStore

inductive Move
  | insert (inst : MemInst) (readyToIssue : Bool) (predicted : Nat)
  | insertNonSpec (inst : MemInst)
  | insertBarrier (inst : MemInst)
  | regsReady (seqNum : Nat)
  | nonSpecInstReady (seqNum : Nat)
  | reschedule (seqNum : Nat)
  | replay
  | wakeDependents (seqNum : Nat)
  | completed (seqNum : Nat)
  | completeBarrier (seqNum : Nat)
  | squash (squashedNum : Nat)

/-- How the pipeline calls the unit. Instructions come in the order of their numbers; a memory
reference is a load or a store, and a barrier is neither; only what has been issued is
rescheduled. -/
def Enabled (w : Watched) : Move → Prop
  | .insert inst _ _ => w.lastSeqNum < inst.seqNum ∧ inst.isLoad ≠ inst.isStore
  | .insertNonSpec inst => w.lastSeqNum < inst.seqNum ∧ inst.isLoad ≠ inst.isStore
  | .insertBarrier inst => w.lastSeqNum < inst.seqNum ∧ inst.isMemRef = false ∧
      (inst.isMemBarrier || inst.isWriteBarrier) = true
  | .nonSpecInstReady seqNum => seqNum ∈ w.nonSpec
  | .reschedule seqNum => seqNum ∈ w.unit.ready
  | .wakeDependents seqNum => (w.unit.entries seqNum).inst.isMemRef = true
  | .completed seqNum => (w.unit.entries seqNum).inst.isMemRef = true
  | .completeBarrier seqNum => seqNum ∈ w.inFlight.map MemInst.seqNum
  | _ => True

instance (w : Watched) (m : Move) : Decidable (Enabled w m) := by
  cases m <;> unfold Enabled <;> infer_instance

def apply (w : Watched) : Move → Option Watched
  | .insert inst readyToIssue predicted =>
    (w.unit.insert inst readyToIssue predicted).map (fun u =>
      { w with
        unit := u
        lastSeqNum := inst.seqNum
        guards := Function.update w.guards inst.seqNum
          ((w.inFlight.filter (fun b => holdsBack b inst)).map MemInst.seqNum) })
  | .insertNonSpec inst =>
    (w.unit.insertNonSpec inst).map (fun u =>
      { w with unit := u, lastSeqNum := inst.seqNum, nonSpec := inst.seqNum :: w.nonSpec })
  | .insertBarrier inst =>
    some { w with
      unit := w.unit.insertBarrier inst
      lastSeqNum := inst.seqNum
      inFlight := inst :: w.inFlight }
  | .regsReady seqNum => (w.unit.regsReady seqNum).map (fun u => { w with unit := u })
  | .nonSpecInstReady seqNum => (w.unit.nonSpecInstReady seqNum).map (fun u => { w with unit := u })
  | .reschedule seqNum => some { w with unit := w.unit.reschedule seqNum }
  | .replay => w.unit.replay.map (fun u => { w with unit := u })
  | .wakeDependents seqNum => (w.unit.wakeDependents seqNum).map (fun u => { w with unit := u })
  | .completed seqNum => (w.unit.completed seqNum).map (fun u => { w with unit := u })
  | .completeBarrier seqNum =>
    (w.unit.completeBarrier seqNum).map (fun u =>
      { w with unit := u, inFlight := w.inFlight.filter (fun b => b.seqNum ≠ seqNum) })
  | .squash squashedNum =>
    (w.unit.squash squashedNum).map (fun u =>
      { w with unit := u, inFlight := w.inFlight.filter (fun b => b.seqNum ≤ squashedNum) })

def move (w : Watched) (m : Move) : Option Watched := if Enabled w m then apply w m else none

def empty : Watched where
  unit := ⟨[], fun _ => ⟨⟨0, false, false, false, false⟩, [], false, false, false⟩, [], [],
    false, 0,
    false, 0, []⟩
  lastSeqNum := 0
  inFlight := []
  guards := fun _ => []
  nonSpec := []

def machine : Machine Watched Move where
  init w := w = empty
  step w m w' := move w m = some w'

/-- No instruction has been handed to `addReadyMemInst` while a barrier that holds it back is
in flight. -/
def Ordered (w : Watched) : Prop :=
  ∀ seqNum ∈ w.unit.ready, ∀ b ∈ w.guards seqNum, b ∉ w.inFlight.map MemInst.seqNum

instance (w : Watched) : Decidable (Ordered w) := by
  unfold Ordered
  infer_instance

/-- Barriers complete in program order, and a squash takes all barriers in flight or none. -/
def BarriersInOrder (w : Watched) : Move → Prop
  | .completeBarrier seqNum => ∀ b ∈ w.inFlight, seqNum ≤ b.seqNum
  | .squash squashedNum =>
    (∀ b ∈ w.inFlight, b.seqNum ≤ squashedNum) ∨ ∀ b ∈ w.inFlight, squashedNum < b.seqNum
  | _ => True

instance (w : Watched) (m : Move) : Decidable (BarriersInOrder w m) := by
  cases m <;> unfold BarriersInOrder <;> infer_instance

/-- Two barriers in flight, of which the younger one is squashed: a load is ready before the
older one has completed. -/
theorem load_passes_older_barrier : ∃ w, machine.Reachable w ∧ ¬Ordered w := by
  exact Machine.exists_run (M := machine) (f := move) (fun _ _ _ h => h) (.start rfl)
    [.insertBarrier ⟨1, false, false, true, false⟩, .insertBarrier ⟨2, false, false, true, false⟩,
      .squash 1, .insert ⟨3, true, false, false, false⟩ true 0] (by decide)

/-! What the operations can release and forget. -/

/-- An operation that inserts nothing. The instructions that it hands over or frees of their
memory dependence are `woken`; those that it removes from the hash are `gone`, and with them
the flags that name them. -/
structure Effect (u u' : MemDepUnit) (woken gone : Nat → Prop) : Prop where
  ready : ∀ x ∈ u'.ready, x ∈ u.ready ∨ woken x
  replay : ∀ x ∈ u'.instsToReplay, x ∈ u.instsToReplay ∨ x ∈ u.ready ∨ woken x
  memDep : ∀ x, (u'.entries x).memDepReady = true → (u.entries x).memDepReady = true ∨ woken x
  depend : ∀ e x, x ∈ (u'.entries e).dependInsts → x ∈ (u.entries e).dependInsts
  inst : ∀ x, (u'.entries x).inst = (u.entries x).inst
  sub : ∀ x ∈ u'.memDepHash, x ∈ u.memDepHash
  hash : ∀ x ∈ u.memDepHash, ¬gone x → x ∈ u'.memDepHash
  loadSN : u'.loadBarrierSN = u.loadBarrierSN
  storeSN : u'.storeBarrierSN = u.storeBarrierSN
  load : ¬gone u.loadBarrierSN → u'.loadBarrier = u.loadBarrier
  store : ¬gone u.storeBarrierSN → u'.storeBarrier = u.storeBarrier

namespace Effect

variable {u u' u'' : MemDepUnit} {woken woken' gone gone' : Nat → Prop}

theorem refl (u : MemDepUnit) (woken gone : Nat → Prop) : Effect u u woken gone where
  ready _ hx := .inl hx
  replay _ hx := .inl hx
  memDep _ hx := .inl hx
  depend _ _ hx := hx
  inst _ := rfl
  sub _ hx := hx
  hash _ hx _ := hx
  loadSN := rfl
  storeSN := rfl
  load _ := rfl
  store _ := rfl

theorem trans (h : Effect u u' woken gone) (h' : Effect u' u'' woken gone) :
    Effect u u'' woken gone where
  ready x hx := (h'.ready x hx).elim (h.ready x) .inr
  replay x hx := by
    rcases h'.replay x hx with hx | hx | hx
    · exact h.replay x hx
    · exact .inr (h.ready x hx)
    · exact .inr (.inr hx)
  memDep x hx := (h'.memDep x hx).elim (h.memDep x) .inr
  depend e x hx := h.depend e x (h'.depend e x hx)
  inst x := (h'.inst x).trans (h.inst x)
  sub x hx := h.sub x (h'.sub x hx)
  hash x hx hg := h'.hash x (h.hash x hx hg) hg
  loadSN := h'.loadSN.trans h.loadSN
  storeSN := h'.storeSN.trans h.storeSN
  load hg := (h'.load (by rwa [h.loadSN])).trans (h.load hg)
  store hg := (h'.store (by rwa [h.storeSN])).trans (h.store hg)

theorem mono (h : Effect u u' woken gone) (hw : ∀ x, woken x → woken' x)
    (hg : ∀ x, gone x → gone' x) : Effect u u' woken' gone' where
  ready x hx := (h.ready x hx).imp_right (hw x)
  replay x hx := (h.replay x hx).imp_right (Or.imp_right (hw x))
  memDep x hx := (h.memDep x hx).imp_right (hw x)
  depend := h.depend
  inst := h.inst
  sub := h.sub
  hash x hx hng := h.hash x hx (fun hgx => hng (hg x hgx))
  loadSN := h.loadSN
  storeSN := h.storeSN
  load hng := h.load (fun hgx => hng (hg _ hgx))
  store hng := h.store (fun hgx => hng (hg _ hgx))

theorem moveToReady (h : u.moveToReady seqNum = some u') (gone : Nat → Prop) :
    Effect u u' (· = seqNum) gone := by
  unfold MemDepUnit.moveToReady at h
  split_ifs at h
  cases h
  refine { Effect.refl u _ _ with ready := fun x hx => ?_ }
  rcases mem_append.mp hx with hx | hx
  · exact .inl hx
  · exact .inr (mem_singleton.mp hx)

/-- The entry of an instruction changes, but not the instruction. -/
theorem setEntry (u : MemDepUnit) (seqNum : Nat) (hinst : e.inst = (u.entries seqNum).inst)
    (hdepend : ∀ x ∈ e.dependInsts, x ∈ (u.entries seqNum).dependInsts)
    (hmem : e.memDepReady = true → (u.entries seqNum).memDepReady = true ∨ woken seqNum) :
    Effect u (u.setEntry seqNum e) woken gone := by
  refine { Effect.refl u _ _ with
    memDep := fun x hx => ?_, depend := fun e' x hx => ?_, inst := fun x => ?_ }
  · obtain rfl | heq := eq_or_ne x seqNum
    · rw [u.entries_setEntry_self] at hx
      exact hmem hx
    · rw [u.entries_setEntry_of_ne heq] at hx
      exact .inl hx
  · obtain rfl | heq := eq_or_ne e' seqNum
    · rw [u.entries_setEntry_self] at hx
      exact hdepend x hx
    · rwa [u.entries_setEntry_of_ne heq] at hx
  · obtain rfl | heq := eq_or_ne x seqNum
    · rw [u.entries_setEntry_self, hinst]
    · rw [u.entries_setEntry_of_ne heq]

theorem regsReady (h : u.regsReady seqNum = some u') (gone : Nat → Prop) :
    Effect u u' (fun x => x = seqNum ∧ x ∈ u.memDepHash ∧ (u.entries x).memDepReady =
      true) gone := by
  unfold MemDepUnit.regsReady at h
  split_ifs at h with hhash
  have hset : ∀ woken, Effect u (u.setEntry seqNum { u.entries seqNum with regsReady := true })
      woken gone := fun _ => .setEntry u seqNum rfl (fun _ hx => hx) .inl
  dsimp only at h
  split_ifs at h with hmem
  · refine (hset _).trans ((Effect.moveToReady h _).mono (fun x hx => ?_) (fun _ hx => hx))
    subst hx
    exact ⟨rfl, hhash, hmem⟩
  · cases h
    exact hset _

theorem nonSpecInstReady (h : u.nonSpecInstReady seqNum = some u')
    (gone : Nat → Prop) : Effect u u' (· = seqNum) gone := by
  unfold MemDepUnit.nonSpecInstReady at h
  split_ifs at h
  exact .moveToReady h _

theorem reschedule (u : MemDepUnit) (h : seqNum ∈ u.ready) (woken gone : Nat → Prop) :
    Effect u (u.reschedule seqNum) woken gone := by
  refine { Effect.refl u _ _ with replay := fun x hx => ?_ }
  rcases mem_append.mp hx with hx | hx
  · exact .inl hx
  · rw [mem_singleton.mp hx]
    exact .inr (.inl h)

theorem replayLoop (h : replayLoop l u = some u') (gone : Nat → Prop) :
    Effect u u' (· ∈ l) gone := by
  induction l generalizing u with
  | nil =>
    cases h
    exact { Effect.refl u _ _ with replay := forall_mem_nil _ }
  | cons seqNum rest ih =>
    unfold MemDepUnit.replayLoop at h
    split_ifs at h
    obtain ⟨v, hv, hrest⟩ := bind_eq_some_iff.mp h
    refine ((Effect.moveToReady hv _).mono (fun x hx => ?_) (fun _ hx => hx)).trans
      ((ih hrest).mono (fun x hx => .tail _ hx) (fun _ hx => hx))
    rw [hx]
    exact .head _

theorem wake (h : u.wake seqNum = some u') (gone : Nat → Prop) : Effect u u' (· = seqNum) gone := by
  unfold MemDepUnit.wake at h
  dsimp only at h
  split at h
  · exact .moveToReady h _
  · cases h
    exact .setEntry u seqNum rfl (fun _ hx => hx) (fun _ => .inr rfl)

theorem wakeAll {l : List Nat} (h : l.foldlM MemDepUnit.wake u = some u') (gone : Nat → Prop) :
    Effect u u' (· ∈ l) gone := by
  induction l generalizing u with
  | nil =>
    cases h
    exact .refl _ _ _
  | cons seqNum rest ih =>
    obtain ⟨v, hv, hrest⟩ := bind_eq_some_iff.mp h
    refine ((Effect.wake hv _).mono (fun x hx => ?_) (fun _ hx => hx)).trans
      ((ih hrest).mono (fun x hx => .tail _ hx) (fun _ hx => hx))
    rw [hx]
    exact .head _

theorem wakeDependents {seqNum : Nat} (h : u.wakeDependents seqNum = some u')
    (gone : Nat → Prop) : Effect u u' (· ∈ (u.entries seqNum).dependInsts) gone := by
  unfold MemDepUnit.wakeDependents at h
  dsimp only at h
  split at h
  · cases h
    exact .refl u _ _
  · split_ifs at h
    obtain ⟨v, hv, rfl⟩ := map_eq_some_iff.mp h
    exact (Effect.wakeAll hv _).trans (.setEntry v seqNum rfl (forall_mem_nil _) .inl)

theorem completed (h : u.completed seqNum = some u') (woken : Nat → Prop) :
    Effect u u' woken (· = seqNum) := by
  unfold MemDepUnit.completed at h
  split_ifs at h
  cases h
  exact { Effect.refl u woken (· = seqNum) with
    sub := fun x hx => mem_of_mem_erase hx
    hash := fun x hx hne => (mem_erase_of_ne hne).mpr hx }

theorem clearLoadBarrier (u : MemDepUnit) (seqNum : Nat) (woken : Nat → Prop) :
    Effect u (u.clearLoadBarrier seqNum) woken (· = seqNum) := by
  unfold MemDepUnit.clearLoadBarrier
  split_ifs with heq
  · exact { Effect.refl u _ _ with load := fun hne => absurd heq hne }
  · exact .refl u _ _

theorem clearStoreBarrier (u : MemDepUnit) (seqNum : Nat) (woken : Nat → Prop) :
    Effect u (u.clearStoreBarrier seqNum) woken (· = seqNum) := by
  unfold MemDepUnit.clearStoreBarrier
  split_ifs with heq
  · exact { Effect.refl u _ _ with store := fun hne => absurd heq hne }
  · exact .refl u _ _

theorem completeBarrier (h : u.completeBarrier seqNum = some u') :
    Effect u u' (· ∈ (u.entries seqNum).dependInsts) (· = seqNum) := by
  unfold MemDepUnit.completeBarrier at h
  obtain ⟨v, hv, h⟩ := bind_eq_some_iff.mp h
  obtain ⟨v', hv', h⟩ := bind_eq_some_iff.mp h
  have hdone := (Effect.wakeDependents hv _).trans (.completed hv' _)
  split at h
  · cases h
    exact (hdone.trans (.clearLoadBarrier _ _ _)).trans (.clearStoreBarrier _ _ _)
  · split at h
    · cases h
      exact hdone.trans (.clearStoreBarrier _ _ _)
    · cases h
      exact hdone

theorem squashInst (h : u.squashInst seqNum = some u') (woken : Nat → Prop) :
    Effect u u' woken (· = seqNum) := by
  unfold MemDepUnit.squashInst at h
  dsimp only at h
  have hclear := (Effect.clearLoadBarrier u seqNum woken).trans
    (.clearStoreBarrier (u.clearLoadBarrier seqNum) seqNum woken)
  generalize (u.clearLoadBarrier seqNum).clearStoreBarrier seqNum = v at h hclear
  split_ifs at h
  cases h
  have hset : Effect v (v.setEntry seqNum { v.entries seqNum with squashed := true }) woken
      (· = seqNum) := .setEntry v seqNum rfl (fun _ hx => hx) .inl
  exact hclear.trans { hset with
    sub := fun x hx => mem_of_mem_erase hx
    hash := fun x hx hne => (mem_erase_of_ne hne).mpr hx }

theorem squashLoop (h : squashLoop squashedNum l u = some u')
    (woken : Nat → Prop) : Effect u u' woken (squashedNum < ·) := by
  induction l generalizing u with
  | nil =>
    cases h
    exact .refl _ _ _
  | cons seqNum rest ih =>
    unfold MemDepUnit.squashLoop at h
    split_ifs at h with hlt
    · obtain ⟨v, hv, hrest⟩ := bind_eq_some_iff.mp h
      exact ((Effect.squashInst hv _).mono (fun _ hx => hx) (fun x hx => hx ▸ hlt)).trans (ih hrest)
    · cases h
      exact .refl _ _ _

theorem squash (h : u.squash squashedNum = some u') (woken : Nat → Prop) :
    Effect u u' woken (squashedNum < ·) := by
  refine Effect.trans ?_ (.squashLoop h woken)
  exact { Effect.refl u _ _ with replay := fun x hx => .inl (mem_filter.mp hx).1 }

end Effect

end MemDepUnit

end Gem5.O3
