import Gem5.O3.DependChains

namespace Gem5.O3

open Lib List Function InstQueue IqEntry IqInst

/-! The dependence tracking of the instruction queue over whole runs. -/

namespace IqInst

/-- Dispatch calls `insert` for the instruction, and `insertNonSpec` or `insertBarrier`
otherwise. -/
def dispatchedToInsert (inst : IqInst) : Bool :=
  !inst.isNonSpeculative &&
    (if inst.isLoad then true
    else if inst.isStore then !inst.isStoreConditional
    else !inst.isMemBarrier && !inst.isWriteBarrier)

/-- The flags that the instruction sets use together. -/
structure WellFlagged (inst : IqInst) : Prop where
  conditional : inst.isStoreConditional = true → inst.isStore = true ∧ inst.isLoad = false
  barrier : inst.isLoad = true ∨ inst.isStore = true → inst.isWriteBarrier = true →
    inst.isMemBarrier = true
  acqRel : inst.isAcqRel = true → inst.isNonSpeculative = false

instance (inst : IqInst) : Decidable inst.WellFlagged :=
  decidable_of_iff
    ((inst.isStoreConditional = true → inst.isStore = true ∧ inst.isLoad = false) ∧
      (inst.isLoad = true ∨ inst.isStore = true → inst.isWriteBarrier = true →
        inst.isMemBarrier = true) ∧
      (inst.isAcqRel = true → inst.isNonSpeculative = false))
    ⟨fun h => ⟨h.1, h.2.1, h.2.2⟩, fun h => ⟨h.1, h.2, h.3⟩⟩

variable {inst : IqInst}

theorem WellFlagged.inChains_eq (h : inst.WellFlagged) :
    inst.inChains = inst.dispatchedToInsert := by
  obtain ⟨h1, h2, h3⟩ := h
  unfold isAcqRel at h3
  unfold inChains isAcqRel dispatchedToInsert
  cases hl : inst.isLoad <;> cases hs : inst.isStore <;> cases hc : inst.isStoreConditional <;>
    cases hm : inst.isMemBarrier <;> cases hw : inst.isWriteBarrier <;>
      cases hn : inst.isNonSpeculative <;> simp_all

end IqInst

/-- The queue with the instructions that have been inserted, those that `insert` has been called
for, those that have completed or been squashed, the last producer of every register, and the
youngest instruction of every thread. -/
structure IqRun where
  iq : InstQueue
  history : List Nat
  tracked : Nat → Bool
  completed : Nat → Bool
  squashed : Nat → Bool
  producerOf : Nat → Option Nat
  lastSeqNum : Nat → Nat

namespace IqRun

variable (numPhysRegs : Nat)

inductive Move
  | insert (sn : Nat) (inst : IqInst) (ready : Nat → Bool) (storeFound : Bool)
  | insertNonSpec (sn : Nat) (inst : IqInst) (ready : Nat → Bool)
  | issue (sn : Nat)
  | wakeDependents (sn : Nat)
  | commit (tid sn : Nat)
  | squash (tid squashedSeqNum : Nat)

def initial : IqRun where
  iq := InstQueue.initial
  history := []
  tracked := fun _ => false
  completed := fun _ => false
  squashed := fun _ => false
  producerOf := fun _ => none
  lastSeqNum := fun _ => 0

/-- The value of a source comes from an instruction of the thread that has not been squashed, or
from before; rename marks what it knows to be there. -/
def SourceRenamed (w : IqRun) (tid : Nat) (ready : Nat → Bool) (src : Nat × Nat) : Prop :=
  if numPhysRegs ≤ src.1 then ready src.2 = true
  else
    match w.producerOf src.1 with
    | none => ready src.2 = true
    | some p => w.squashed p = false ∧ (w.iq.insts p).threadNumber = tid ∧
        (ready src.2 = true → w.completed p = true)

instance (w : IqRun) (tid : Nat) (ready : Nat → Bool) (src : Nat × Nat) :
    Decidable (SourceRenamed numPhysRegs w tid ready src) := by
  unfold SourceRenamed
  split
  · infer_instance
  · split <;> infer_instance

/-- The producer and the consumers of the last value of a register have completed or been
squashed. -/
def Free (w : IqRun) (d : Nat) : Prop :=
  (∀ p ∈ w.producerOf d, w.completed p = true ∨ w.squashed p = true) ∧
  ∀ j ∈ w.history, d ∈ (w.iq.insts j).srcRegs → w.completed j = true ∨ w.squashed j = true

instance (w : IqRun) (d : Nat) : Decidable (Free w d) := inferInstanceAs (Decidable (_ ∧ _))

structure Renamed (w : IqRun) (sn : Nat) (inst : IqInst) (ready : Nat → Bool) : Prop where
  fresh : sn ∉ w.history
  younger : w.lastSeqNum inst.threadNumber < sn
  flags : inst.WellFlagged
  sources : ∀ src ∈ inst.srcRegs.zipIdx, SourceRenamed numPhysRegs w inst.threadNumber ready src
  dests : ∀ d ∈ inst.destRegs, d < numPhysRegs → d ∉ inst.srcRegs ∧ Free w d

instance (w : IqRun) (sn : Nat) (inst : IqInst) (ready : Nat → Bool) :
    Decidable (Renamed numPhysRegs w sn inst ready) :=
  decidable_of_iff
    (sn ∉ w.history ∧ w.lastSeqNum inst.threadNumber < sn ∧ inst.WellFlagged ∧
      (∀ src ∈ inst.srcRegs.zipIdx, SourceRenamed numPhysRegs w inst.threadNumber ready src) ∧
      ∀ d ∈ inst.destRegs, d < numPhysRegs → d ∉ inst.srcRegs ∧ Free w d)
    ⟨fun h => ⟨h.1, h.2.1, h.2.2.1, h.2.2.2.1, h.2.2.2.2⟩,
      fun h => ⟨h.fresh, h.younger, h.flags, h.sources, h.dests⟩⟩

/-- What the pipeline does: instructions come renamed, issue when the queue has them as ready or
commit has allowed it, complete once, and have issued when they commit. -/
def Enabled (w : IqRun) : Move → Prop
  | .insert sn inst ready _ =>
    Renamed numPhysRegs w sn inst ready ∧ inst.dispatchedToInsert = true
  | .insertNonSpec sn inst ready =>
    Renamed numPhysRegs w sn inst ready ∧ inst.dispatchedToInsert = false
  | .issue sn => sn ∈ w.history ∧ w.squashed sn = false ∧ (w.iq.insts sn).issued = false ∧
      (w.tracked sn = true → sn ∈ w.iq.readyInsts)
  | .wakeDependents sn => sn ∈ w.history ∧ w.squashed sn = false ∧
      (w.iq.insts sn).issued = true ∧ w.completed sn = false
  | .commit tid sn => ∀ j ∈ w.iq.instList tid, j ≤ sn → (w.iq.insts j).issued = true
  | .squash _ _ => True

instance (w : IqRun) (m : Move) : Decidable (Enabled numPhysRegs w m) := by
  cases m <;> unfold Enabled <;> infer_instance

/-- An instruction is the last producer of its registers. -/
def inserted (w : IqRun) (sn : Nat) (inst : IqInst) (tracked : Bool) (iq : InstQueue) : IqRun :=
  { w with
    iq
    history := sn :: w.history
    tracked := Function.update w.tracked sn tracked
    producerOf := fun r =>
      if r < numPhysRegs ∧ r ∈ inst.destRegs then some sn else w.producerOf r
    lastSeqNum := Function.update w.lastSeqNum inst.threadNumber sn }

/-- `none` is a panic or a failed assertion. -/
def apply (w : IqRun) : Move → Option IqRun
  | .insert sn inst ready storeFound =>
    (w.iq.insert numPhysRegs sn (IqEntry.renamed inst ready) storeFound).map
      (inserted numPhysRegs w sn inst true)
  | .insertNonSpec sn inst ready =>
    (w.iq.insertNonSpec numPhysRegs sn (IqEntry.renamed inst ready)).map
      (inserted numPhysRegs w sn inst false)
  | .issue sn => some { w with iq := w.iq.issue sn }
  | .wakeDependents sn => some
      { w with
        iq := w.iq.wakeDependents numPhysRegs sn
        completed := Function.update w.completed sn true }
  | .commit tid sn => some { w with iq := w.iq.commit tid sn }
  | .squash tid squashedSeqNum => (w.iq.squash numPhysRegs tid squashedSeqNum).map (fun iq =>
      { w with
        iq
        squashed := fun j => w.squashed j ||
          decide (j ∈ w.history ∧ (w.iq.insts j).threadNumber = tid ∧ squashedSeqNum < j) })

def machine : Machine IqRun Move where
  init w := w = initial
  step w m w' := Enabled numPhysRegs w m ∧ apply numPhysRegs w m = some w'

/-- The last producer of a register has not completed. -/
def pending (w : IqRun) (r : Nat) : Bool :=
  decide (r < numPhysRegs) && (w.producerOf r).any (fun p => !w.completed p)

/-- The instruction has been inserted by `insert`, and has not been squashed and not been issued. -/
def Waits (w : IqRun) (j : Nat) : Prop :=
  w.tracked j = true ∧ w.squashed j = false ∧ (w.iq.insts j).issued = false

instance (w : IqRun) (j : Nat) : Decidable (Waits w j) := inferInstanceAs (Decidable (_ ∧ _))

/-- The instruction may still need its sources. -/
def Active (w : IqRun) (j : Nat) : Prop :=
  w.tracked j = true ∧ w.squashed j = false ∧ w.completed j = false

/-- The instructions that may still need their sources: what is marked or was ready at the issue is
not pending, and the producer of a source is older and will not be squashed alone. -/
structure Flow (w : IqRun) : Prop where
  marked : ∀ j, Active w j → ∀ src ∈ (w.iq.insts j).srcRegs.zipIdx,
    (w.iq.insts j).readySrcRegIdx src.2 = true → pending numPhysRegs w src.1 = false
  issued : ∀ j, Active w j → (w.iq.insts j).issued = true → ∀ r ∈ (w.iq.insts j).srcRegs,
    pending numPhysRegs w r = false
  sources : ∀ j, Active w j → ∀ r ∈ (w.iq.insts j).srcRegs, r < numPhysRegs →
    ∀ p, w.producerOf r = some p → w.squashed p = false ∧
      (w.iq.insts p).threadNumber = (w.iq.insts j).threadNumber ∧ p < j

/-- A register is that of its last producer, and the scoreboard tells whether that has completed. -/
structure Producers (w : IqRun) : Prop where
  board : ∀ r p, r < numPhysRegs → w.producerOf r = some p → w.iq.regScoreboard r = w.completed p
  owns : ∀ p ∈ w.history, w.completed p = false → w.squashed p = false →
    ∀ d ∈ (w.iq.insts p).destRegs, d < numPhysRegs → w.producerOf d = some p
  produces : ∀ r p, w.producerOf r = some p → p ∈ w.history ∧ r ∈ (w.iq.insts p).destRegs

/-- The lists of the threads are in program order, and have what waits. -/
structure Lists (w : IqRun) : Prop where
  listed : ∀ j, Waits w j → j ∈ w.iq.instList (w.iq.insts j).threadNumber
  list : ∀ t, ∀ j ∈ w.iq.instList t, j ∈ w.history ∧ (w.iq.insts j).threadNumber = t ∧
    w.squashed j = false ∧ (w.iq.insts j).squashedInIQ = false
  sorted : ∀ t, (w.iq.instList t).Pairwise (fun i j => i < j)
  last : ∀ j ∈ w.history, j ≤ w.lastSeqNum (w.iq.insts j).threadNumber

/-- The invariant of the queue. -/
structure Tracks (w : IqRun) : Prop extends Flow numPhysRegs w, Producers numPhysRegs w,
    Lists w where
  counts : w.iq.Counts (Waits w) (pending numPhysRegs w)
  done : ∀ j, w.completed j = true → j ∈ w.history ∧ (w.iq.insts j).issued = true ∧
    ((w.iq.insts j).isMemRef = true → (w.iq.insts j).memOpDone = true)
  known : ∀ j, w.tracked j = true ∨ w.squashed j = true ∨ j ∈ w.iq.readyInsts → j ∈ w.history
  kinds : ∀ j ∈ w.history, w.tracked j = (w.iq.insts j).inChains

variable {numPhysRegs} {w w' : IqRun} {ready : Nat → Bool} {sn : Nat}

theorem Tracks.waits_active (h : Tracks numPhysRegs w) (hj : Waits w j) : Active w j := by
  obtain ⟨htracked, hsquashed, hissued⟩ := hj
  refine ⟨htracked, hsquashed, eq_false_of_ne_true (fun hdone => ?_)⟩
  rw [(h.done j hdone).2.1] at hissued
  cases hissued

theorem Tracks.active_known (h : Tracks numPhysRegs w) (hj : Active w j) :
    j ∈ w.history := h.known j (.inl hj.1)

theorem exists_zipIdx {l : List Nat} {r : Nat} (hr : r ∈ l) : ∃ src ∈ l.zipIdx, src.1 = r := by
  have hmem : r ∈ l.zipIdx.map Prod.fst := by simpa using hr
  exact mem_map.mp hmem

theorem mem_of_zipIdx {l : List Nat} {src : Nat × Nat} (hsrc : src ∈ l.zipIdx) : src.1 ∈ l := by
  have hmem : src.1 ∈ l.zipIdx.map Prod.fst := mem_map_of_mem hsrc
  simpa using hmem

theorem pending_eq (hlt : r < numPhysRegs) (hp : w.producerOf r = some p) :
    pending numPhysRegs w r = !w.completed p := by
  simp [pending, hlt, hp]

section

variable (h : Tracks numPhysRegs w)
include h

/-- What rename knows about a source agrees with the scoreboard of the queue. -/
theorem Tracks.sourceKnown (hren : Renamed numPhysRegs w sn inst ready) :
    ∀ src ∈ inst.srcRegs.zipIdx,
      SourceKnown numPhysRegs (w.iq.enqueue sn (renamed inst ready)) sn
        (pending numPhysRegs w) src := by
  intro src hsrc
  have hsource := hren.sources src hsrc
  unfold SourceRenamed at hsource
  unfold SourceKnown
  rw [show (w.iq.enqueue sn (renamed inst ready)).insts sn = renamed inst ready from
    update_self _ _ _, renamed_marks hsrc]
  split_ifs at hsource with hle
  · rw [if_pos hsource]
    simp [pending, not_lt.mpr hle]
  have hlt := not_le.mp hle
  split at hsource
  · rename_i hnone
    rw [if_pos hsource]
    simp [pending, hnone]
  rename_i p hp
  rw [pending_eq hlt hp]
  split_ifs with hready
  · rw [hsource.2.2 hready]
    rfl
  · refine ⟨hlt, ?_⟩
    rw [Bool.not_not]
    exact h.board src.1 p hlt hp

/-- Nobody needs the last value of a register that gets a new producer. -/
theorem Tracks.not_mem_of_free (hfree : Free w d)
    (hj : Active w j) : d ∉ (w.iq.insts j).srcRegs := by
  intro hmem
  rcases hfree.2 j (h.active_known hj) hmem with hdone | hsquashed
  · rw [hj.2.2] at hdone
    cases hdone
  · rw [hj.2.1] at hsquashed
    cases hsquashed

theorem Tracks.fresh (hsn : sn ∉ w.history) :
    w.tracked sn = false ∧ w.squashed sn = false ∧ w.completed sn = false :=
  ⟨eq_false_of_ne_true (fun hyes => hsn (h.known sn (.inl hyes))),
    eq_false_of_ne_true (fun hyes => hsn (h.known sn (.inr (.inl hyes)))),
    eq_false_of_ne_true (fun hyes => hsn (h.done sn hyes).1)⟩

/-- The registers of a new instruction are pending. -/
theorem Tracks.pending_inserted (hsn : sn ∉ w.history)
    (inst : IqInst) (tracked : Bool) (iq : InstQueue) :
    pending numPhysRegs (inserted numPhysRegs w sn inst tracked iq) =
      produced numPhysRegs (pending numPhysRegs w) inst := by
  funext r
  unfold produced
  by_cases hr : r < numPhysRegs ∧ r ∈ inst.destRegs
  · simp [pending, inserted, hr, (h.fresh hsn).2.2]
  · rw [decide_eq_false hr, Bool.or_false]
    simp only [pending, inserted, if_neg hr]

end

section

variable {inst : IqInst} {iq : InstQueue} {tracked : Bool} (h : Tracks numPhysRegs w)
  (hren : Renamed numPhysRegs w sn inst ready) (hins : Inserted numPhysRegs w.iq iq sn inst)

/-- An active instruction is the new one, or was active before. -/
theorem active_inserted (hj : Active (inserted numPhysRegs w sn inst tracked iq) j) :
    j = sn ∧ tracked = true ∨ j ≠ sn ∧ Active w j := by
  obtain ⟨htracked, hrest⟩ := hj
  have htracked : update w.tracked sn tracked j = true := htracked
  obtain rfl | hne := eq_or_ne j sn
  · rw [update_self] at htracked
    exact .inl ⟨rfl, htracked⟩
  · rw [update_of_ne hne] at htracked
    exact .inr ⟨hne, htracked, hrest⟩

include hren hins

theorem Renamed.insts_old (hj : j ∈ w.history) : iq.insts j = w.iq.insts j :=
  hins.others j (fun heq => hren.fresh (heq ▸ hj))

include h

/-- The new producer writes no register that is a source of an active instruction. -/
theorem Tracks.source_kept (hj : Active (IqRun.inserted numPhysRegs w sn inst tracked iq) j)
    (hr : r ∈ (iq.insts j).srcRegs) : ¬(r < numPhysRegs ∧ r ∈ inst.destRegs) := by
  rintro ⟨hlt, hd⟩
  obtain ⟨hnot, hfree⟩ := hren.dests r hd hlt
  rcases active_inserted hj with ⟨rfl, -⟩ | ⟨hne, hj⟩
  · rw [congrArg srcRegs hins.entry] at hr
    exact hnot hr
  · rw [hins.others j hne] at hr
    exact h.not_mem_of_free hfree hj hr

theorem Tracks.flow_inserted (hmarks : tracked = true → ∀ src ∈ inst.srcRegs.zipIdx,
      (iq.insts sn).readySrcRegIdx src.2 = true → pending numPhysRegs w src.1 = false) :
    Flow numPhysRegs (IqRun.inserted numPhysRegs w sn inst tracked iq) := by
  have hpending : ∀ j, Active (IqRun.inserted numPhysRegs w sn inst tracked iq) j →
      ∀ r ∈ (iq.insts j).srcRegs, pending numPhysRegs
        (IqRun.inserted numPhysRegs w sn inst tracked iq)
        r = pending numPhysRegs w r := by
    intro j hj r hr
    rw [h.pending_inserted hren.fresh]
    exact produced_eq (fun hd hlt => h.source_kept hren hins hj hr ⟨hlt, hd⟩)
  refine ⟨fun j hj src hsrc hmark => ?_, fun j hj hissued r hr => ?_, fun j hj r hr hlt p hp => ?_⟩
  · rw [hpending j hj src.1 (mem_of_zipIdx hsrc)]
    change src ∈ (iq.insts j).srcRegs.zipIdx at hsrc
    change (iq.insts j).readySrcRegIdx src.2 = true at hmark
    rcases active_inserted hj with ⟨rfl, htrue⟩ | ⟨hne, hj⟩
    · rw [congrArg srcRegs hins.entry] at hsrc
      exact hmarks htrue src hsrc hmark
    · rw [hins.others j hne] at hsrc hmark
      exact h.marked j hj src hsrc hmark
  · rw [hpending j hj r hr]
    change (iq.insts j).issued = true at hissued
    change r ∈ (iq.insts j).srcRegs at hr
    rcases active_inserted hj with ⟨rfl, -⟩ | ⟨hne, hj⟩
    · rw [hins.issued] at hissued
      cases hissued
    · rw [hins.others j hne] at hissued hr
      exact h.issued j hj hissued r hr
  · have hold : w.producerOf r = some p := (if_neg (h.source_kept hren hins hj hr)).symm.trans hp
    have hknown := (h.produces r p hold).1
    change w.squashed p = false ∧ (iq.insts p).threadNumber = (iq.insts j).threadNumber ∧ p < j
    change r ∈ (iq.insts j).srcRegs at hr
    rw [hren.insts_old hins hknown]
    rcases active_inserted hj with ⟨rfl, -⟩ | ⟨hne, hj⟩
    · rw [congrArg srcRegs hins.entry] at hr
      obtain ⟨src, hsrc, heq⟩ := exists_zipIdx hr
      have hsource := hren.sources src hsrc
      unfold SourceRenamed at hsource
      rw [heq, if_neg (not_le.mpr hlt), hold] at hsource
      rw [congrArg threadNumber hins.entry]
      refine ⟨hsource.1, hsource.2.1, (h.last p hknown).trans_lt ?_⟩
      rw [hsource.2.1]
      exact hren.younger
    · rw [hins.others j hne] at hr ⊢
      exact h.sources j hj r hr hlt p hold

theorem Tracks.producers_inserted :
    Producers numPhysRegs (IqRun.inserted numPhysRegs w sn inst tracked iq) := by
  have hproducer : ∀ r p, (IqRun.inserted numPhysRegs w sn inst tracked iq).producerOf r = some p →
      (r < numPhysRegs ∧ r ∈ inst.destRegs) ∧ some sn = some p ∨
        ¬ (r < numPhysRegs ∧ r ∈ inst.destRegs) ∧ w.producerOf r = some p :=
    fun r p hp => ite_eq_iff.mp hp
  refine ⟨fun r p hlt hp => ?_, fun p hp hdone hsq d hd hlt => ?_, fun r p hp => ?_⟩
  · change iq.regScoreboard r = w.completed p
    rw [hins.regScoreboard]
    rcases hproducer r p hp with ⟨hd, heq⟩ | ⟨hd, hp⟩
    · rw [decide_eq_true hd, ← Option.some.inj heq, (h.fresh hren.fresh).2.2]
      exact Bool.and_false _
    · rw [decide_eq_false hd, Bool.not_false, Bool.and_true]
      exact h.board r p hlt hp
  · change (if d < numPhysRegs ∧ d ∈ inst.destRegs then some sn else w.producerOf d) = some p
    change d ∈ (iq.insts p).destRegs at hd
    rcases mem_cons.mp hp with rfl | hp
    · rw [congrArg destRegs hins.entry] at hd
      rw [if_pos ⟨hlt, hd⟩]
    rw [hren.insts_old hins hp] at hd
    have howns := h.owns p hp hdone hsq d hd hlt
    -- a register that gets a new producer has none that is in flight
    rw [if_neg (fun hnew => ?_)]
    · exact howns
    · rcases (hren.dests d hnew.2 hnew.1).2.1 p howns with hyes | hyes
      · exact Bool.false_ne_true (hdone.symm.trans hyes)
      · exact Bool.false_ne_true (hsq.symm.trans hyes)
  · change p ∈ sn :: w.history ∧ r ∈ (iq.insts p).destRegs
    rcases hproducer r p hp with ⟨hd, heq⟩ | ⟨-, hp⟩
    · rw [← Option.some.inj heq, congrArg destRegs hins.entry]
      exact ⟨mem_cons_self, hd.2⟩
    · obtain ⟨hknown, hdest⟩ := h.produces r p hp
      rw [hren.insts_old hins hknown]
      exact ⟨.tail _ hknown, hdest⟩

theorem Tracks.lists_inserted : Lists (IqRun.inserted numPhysRegs w sn inst tracked iq) := by
  have htid : (iq.insts sn).threadNumber = inst.threadNumber := congrArg threadNumber hins.entry
  have hmem : ∀ t j, j ∈ iq.instList t ↔ j ∈ w.iq.instList t ∨ j = sn ∧ t = inst.threadNumber := by
    intro t j
    rw [hins.instList]
    obtain rfl | ht := eq_or_ne t inst.threadNumber
    · simp
    · simp [ht]
  refine ⟨fun j hj => ?_, fun t j hj => ?_, fun t => ?_, fun j hj => ?_⟩
  · refine (hmem _ j).mpr ?_
    obtain rfl | hne := eq_or_ne j sn
    · exact .inr ⟨rfl, htid⟩
    · obtain ⟨htracked, hsq, hissued⟩ := hj
      change (iq.insts j).issued = false at hissued
      change j ∈ w.iq.instList (iq.insts j).threadNumber ∨ _
      rw [hins.others j hne] at hissued ⊢
      exact .inl (h.listed j ⟨(update_of_ne hne _ _).symm.trans htracked, hsq, hissued⟩)
  · change j ∈ sn :: w.history ∧ (iq.insts j).threadNumber = t ∧ w.squashed j = false ∧
      (iq.insts j).squashedInIQ = false
    rcases (hmem t j).mp hj with hj | ⟨rfl, rfl⟩
    · obtain ⟨hknown, hrest⟩ := h.list t j hj
      rw [hren.insts_old hins hknown]
      exact ⟨.tail _ hknown, hrest⟩
    · exact ⟨mem_cons_self, htid, (h.fresh hren.fresh).2.1, hins.squashedInIQ⟩
  · change (iq.instList t).Pairwise (fun i j => i < j)
    rw [hins.instList]
    obtain rfl | ht := eq_or_ne t inst.threadNumber
    · rw [update_self]
      refine pairwise_append.mpr ⟨h.sorted _, pairwise_singleton _ _, fun i hi j hj => ?_⟩
      obtain ⟨hknown, hthread, -⟩ := h.list _ i hi
      rw [mem_singleton.mp hj]
      exact (hthread ▸ h.last i hknown).trans_lt hren.younger
    · rw [update_of_ne ht]
      exact h.sorted t
  · change j ≤ update w.lastSeqNum inst.threadNumber sn (iq.insts j).threadNumber
    rcases mem_cons.mp hj with rfl | hj
    · rw [htid, update_self]
    rw [hren.insts_old hins hj]
    have hle := h.last j hj
    by_cases ht : (w.iq.insts j).threadNumber = inst.threadNumber
    · rw [ht] at hle ⊢
      rw [update_self]
      exact hle.trans hren.younger.le
    · rwa [update_of_ne ht]

/-- An instruction that has been put into the queue, and counted, is tracked with the others. -/
theorem Tracks.inserted (hkind : tracked = inst.inChains)
    (hcounts : iq.Counts (Waits (IqRun.inserted numPhysRegs w sn inst tracked iq))
      (produced numPhysRegs (pending numPhysRegs w) inst))
    (hmarks : tracked = true → ∀ src ∈ inst.srcRegs.zipIdx,
      (iq.insts sn).readySrcRegIdx src.2 = true → pending numPhysRegs w src.1 = false) :
    Tracks numPhysRegs (IqRun.inserted numPhysRegs w sn inst tracked iq) where
  toFlow := h.flow_inserted hren hins hmarks
  toProducers := h.producers_inserted hren hins
  toLists := h.lists_inserted hren hins
  counts := h.pending_inserted hren.fresh inst tracked iq ▸ hcounts
  done j hj := by
    obtain ⟨hknown, hrest⟩ := h.done j hj
    exact ⟨.tail _ hknown, (hren.insts_old hins hknown).symm ▸ hrest⟩
  known j hj := by
    obtain rfl | hne := eq_or_ne j sn
    · exact mem_cons_self
    refine .tail _ (h.known j (hj.imp (fun hyes => ?_) (.imp_right fun hyes => ?_)))
    · exact (update_of_ne hne _ _).symm.trans hyes
    · exact (hins.readyInsts j hyes).resolve_right hne
  kinds j hj := by
    change update w.tracked sn tracked j = (iq.insts j).inChains
    rcases mem_cons.mp hj with rfl | hj
    · rw [update_self, congrArg inChains hins.entry]
      exact hkind
    · have hne : j ≠ sn := fun heq => hren.fresh (heq ▸ hj)
      rw [update_of_ne hne, hren.insts_old hins hj]
      exact h.kinds j hj

end

section

variable {inst : IqInst} (h : Tracks numPhysRegs w)
include h

/-- `insert` finds all in place for the sources and registers of a new instruction. -/
theorem Tracks.insert
    {storeFound : Bool} (hen : Enabled numPhysRegs w (.insert sn inst ready storeFound)) :
    ∃ w', apply numPhysRegs w (.insert sn inst ready storeFound) = some w' ∧
      Tracks numPhysRegs w' := by
  obtain ⟨hren, hdispatch⟩ := hen
  obtain ⟨htracked, hsquashed, -⟩ := h.fresh hren.fresh
  obtain ⟨iq, hiq, hins, hmarks, hcounts⟩ := h.counts.insert storeFound
    (fun hwaits => by rw [hwaits.1] at htracked; cases htracked)
    (fun hmem => hren.fresh (h.known sn (.inr (.inr hmem)))) (h.sourceKnown hren)
    (fun j hj d hd hlt => h.not_mem_of_free (hren.dests d hd hlt).2 (h.waits_active hj))
    (fun d hd hlt => (hren.dests d hd hlt).1)
  refine ⟨IqRun.inserted numPhysRegs w sn inst true iq, by simp [apply, hiq],
    h.inserted hren hins (by rw [hren.flags.inChains_eq, hdispatch]) ?_ (fun _ => hmarks)⟩
  have hwaits : Waits (IqRun.inserted numPhysRegs w sn inst true iq) =
      fun j => Waits w j ∨ j = sn := by
    funext j
    obtain rfl | hne := eq_or_ne j sn
    · simp [Waits, IqRun.inserted, hsquashed, hins.issued]
    · simp [Waits, IqRun.inserted, hne, hins.others j hne]
  rw [hwaits]
  exact hcounts

theorem Tracks.insertNonSpec (hen : Enabled numPhysRegs w (.insertNonSpec sn inst ready)) :
    ∃ w', apply numPhysRegs w (.insertNonSpec sn inst ready) = some w' ∧ Tracks numPhysRegs w' := by
  obtain ⟨hren, hdispatch⟩ := hen
  obtain ⟨htracked, hsquashed, -⟩ := h.fresh hren.fresh
  obtain ⟨iq, hiq, hins, hcounts⟩ := h.counts.insertNonSpec ready
    (fun hwaits : Waits w sn => by rw [hwaits.1] at htracked; cases htracked)
    (fun j hj d hd hlt => h.not_mem_of_free (hren.dests d hd hlt).2 (h.waits_active hj))
  refine ⟨IqRun.inserted numPhysRegs w sn inst false iq, by simp [apply, hiq],
    h.inserted hren hins (by rw [hren.flags.inChains_eq, hdispatch]) ?_ nofun⟩
  have hwaits : Waits (IqRun.inserted numPhysRegs w sn inst false iq) = Waits w := by
    funext j
    obtain rfl | hne := eq_or_ne j sn
    · simp [Waits, IqRun.inserted, htracked]
    · simp [Waits, IqRun.inserted, hne, hins.others j hne]
  rw [hwaits]
  exact hcounts

end

/-- A step that inserts no instruction: the instructions keep their registers, no register becomes
pending, and the lists of the threads get shorter. -/
structure Advances (w w' : IqRun) : Prop where
  history : w'.history = w.history
  tracked : w'.tracked = w.tracked
  producerOf : w'.producerOf = w.producerOf
  lastSeqNum : w'.lastSeqNum = w.lastSeqNum
  insts : ∀ j, (w'.iq.insts j).toIqInst = (w.iq.insts j).toIqInst
  marks : ∀ j, Active w' j → (w'.iq.insts j).readySrcRegIdx = (w.iq.insts j).readySrcRegIdx
  completed : ∀ j, w.completed j = true → w'.completed j = true
  squashed : ∀ j, w.squashed j = true → w'.squashed j = true
  instList : ∀ t, (w'.iq.instList t).Sublist (w.iq.instList t)

theorem eq_false_of_imp {a b : Bool} (h : a = true → b = true) (hb : b = false) : a = false :=
  eq_false_of_ne_true (fun ha => Bool.false_ne_true (hb.symm.trans (h ha)))

theorem Advances.active (ha : Advances w w') (hj : Active w' j) : Active w j :=
  ⟨ha.tracked ▸ hj.1, eq_false_of_imp (ha.squashed j) hj.2.1,
    eq_false_of_imp (ha.completed j) hj.2.2⟩

theorem Advances.pending (ha : Advances w w') (hr : pending numPhysRegs w r = false) :
    pending numPhysRegs w' r = false := by
  unfold IqRun.pending at hr ⊢
  rw [ha.producerOf]
  cases hp : w.producerOf r with
  | none => simp
  | some p =>
    rw [hp] at hr
    by_cases hlt : r < numPhysRegs
    · have hdone : w.completed p = true := by simpa [hlt] using hr
      simp [ha.completed p hdone]
    · simp [hlt]

section

variable (h : Tracks numPhysRegs w)
include h

/-- A step that completes, issues or takes out instructions. -/
theorem Tracks.advance (ha : Advances w w')
    (hcounts : w'.iq.Counts (Waits w') (pending numPhysRegs w'))
    (hboard : ∀ r p, r < numPhysRegs → w.producerOf r = some p →
      w'.iq.regScoreboard r = w'.completed p)
    (hissued : ∀ j, Active w' j → (w'.iq.insts j).issued = true →
      (w.iq.insts j).issued = true ∨ ∀ r ∈ (w.iq.insts j).srcRegs, pending numPhysRegs w r = false)
    (hsources : ∀ j, Active w' j → ∀ p, w.squashed p = false →
      (w.iq.insts p).threadNumber = (w.iq.insts j).threadNumber → p < j → p ∈ w.history →
      w'.squashed p = false)
    (hlisted : ∀ j, Waits w' j → j ∈ w'.iq.instList (w.iq.insts j).threadNumber)
    (hlist : ∀ t, ∀ j ∈ w'.iq.instList t, w'.squashed j = false ∧
      (w'.iq.insts j).squashedInIQ = false)
    (hdone : ∀ j, w'.completed j = true → j ∈ w.history ∧ (w'.iq.insts j).issued = true ∧
      ((w.iq.insts j).isMemRef = true → (w'.iq.insts j).memOpDone = true))
    (hknown : ∀ j, w'.squashed j = true ∨ j ∈ w'.iq.readyInsts → j ∈ w.history) :
    Tracks numPhysRegs w' := by
  have hsrcs : ∀ j, (w'.iq.insts j).srcRegs = (w.iq.insts j).srcRegs :=
    fun j => congrArg srcRegs (ha.insts j)
  have hdests : ∀ j, (w'.iq.insts j).destRegs = (w.iq.insts j).destRegs :=
    fun j => congrArg destRegs (ha.insts j)
  have htid : ∀ j, (w'.iq.insts j).threadNumber = (w.iq.insts j).threadNumber :=
    fun j => congrArg threadNumber (ha.insts j)
  refine ⟨⟨fun j hj src hsrc hmark => ?_, fun j hj hiss r hr => ?_, fun j hj r hr hlt p hp => ?_⟩,
    ⟨fun r p hlt hp => hboard r p hlt (ha.producerOf ▸ hp), fun p hp hcomp hsq d hd hlt => ?_,
      fun r p hp => ?_⟩,
    ⟨fun j hj => (htid j).symm ▸ hlisted j hj, fun t j hj => ?_,
      fun t => (h.sorted t).sublist (ha.instList t),
      fun j hj => ?_⟩, hcounts, fun j hj => ?_, fun j hj => ?_, fun j hj => ?_⟩
  · rw [hsrcs] at hsrc
    rw [ha.marks j hj] at hmark
    exact ha.pending (h.marked j (ha.active hj) src hsrc hmark)
  · rw [hsrcs] at hr
    rcases hissued j hj hiss with hold | hready
    · exact ha.pending (h.issued j (ha.active hj) hold r hr)
    · exact ha.pending (hready r hr)
  · rw [hsrcs] at hr
    rw [ha.producerOf] at hp
    obtain ⟨h1, h2, h3⟩ := h.sources j (ha.active hj) r hr hlt p hp
    rw [htid, htid]
    exact ⟨hsources j hj p h1 h2 h3 (h.produces r p hp).1, h2, h3⟩
  · rw [ha.history] at hp
    rw [hdests] at hd
    rw [ha.producerOf]
    exact h.owns p hp (eq_false_of_imp (ha.completed p) hcomp) (eq_false_of_imp (ha.squashed p) hsq)
      d hd hlt
  · rw [ha.producerOf] at hp
    rw [ha.history, hdests]
    exact h.produces r p hp
  · obtain ⟨h1, h2, -, -⟩ := h.list t j ((ha.instList t).subset hj)
    rw [ha.history, htid]
    exact ⟨h1, h2, hlist t j hj⟩
  · rw [ha.history] at hj
    rw [ha.lastSeqNum, htid]
    exact h.last j hj
  · rw [ha.history, congrArg isMemRef (ha.insts j)]
    exact hdone j hj
  · rw [ha.history]
    rcases hj with hj | hj | hj
    · exact h.known j (.inl (ha.tracked ▸ hj))
    · exact hknown j (.inl hj)
    · exact hknown j (.inr hj)
  · rw [ha.history] at hj
    rw [ha.tracked, congrArg inChains (ha.insts j)]
    exact h.kinds j hj

/-- What is ready waits for nothing. -/
theorem Tracks.ready_sources (hj : Waits w j)
    (hmem : j ∈ w.iq.readyInsts) : ∀ r ∈ (w.iq.insts j).srcRegs,
      pending numPhysRegs w r = false := by
  have hpos := count_pos_iff.mpr hmem
  rw [(h.counts.counted j hj).once] at hpos
  split_ifs at hpos with hall
  · rw [(h.counts.counted j hj).ready, countP_eq_length] at hall
    exact fun r hr => by simpa using hall r hr
  · cases hpos

theorem Tracks.issue (hen : Enabled numPhysRegs w (.issue sn)) :
    Tracks numPhysRegs { w with iq := w.iq.issue sn } := by
  obtain ⟨hhistory, hsq, hnot, hready⟩ := hen
  have hinst : ∀ j, (w.iq.issue sn).insts j =
      { w.iq.insts j with issued := (w.iq.insts j).issued || decide (j = sn) } := by
    intro j
    obtain rfl | hj := eq_or_ne j sn
    · exact (update_self _ _ _).trans (by simp)
    · exact (update_of_ne hj _ _).trans (by simp [hj])
  have hother : ∀ j, j ≠ sn → (w.iq.issue sn).insts j = w.iq.insts j :=
    fun j hj => update_of_ne hj _ _
  have hwaits : ∀ j, Waits { w with iq := w.iq.issue sn } j → Waits w j ∧ j ≠ sn := by
    intro j hj
    obtain ⟨h1, h2, h3⟩ := hj
    rw [hinst, Bool.or_eq_false_iff] at h3
    exact ⟨⟨h1, h2, h3.1⟩, of_decide_eq_false h3.2⟩
  -- the instruction is in no chain
  have hchains : ∀ r, sn ∉ w.iq.dependGraph r := by
    intro r hmem
    have hw := h.counts.members r sn hmem
    have hcount := h.counts.chain sn hw r
    have hpos := count_pos_iff.mpr hmem
    rw [h.ready_sources hw (hready hw.1) r (h.counts.mem_srcRegs hmem)] at hcount
    rw [hcount] at hpos
    cases hpos
  refine h.advance ⟨rfl, rfl, rfl, rfl, fun j => ?_, fun j _ => ?_, fun _ hj => hj, fun _ hj => hj,
    fun t => List.Sublist.refl _⟩ ?_ h.board (fun j hj hiss => ?_) (fun _ _ _ hp _ _ _ => hp)
    (fun j hj => h.listed j (hwaits j hj).1) (fun t j hj => ?_) (fun j hj => ?_) (fun j hj => ?_)
  · rw [hinst]
  · rw [hinst]
  · refine h.counts.remove (fun j hj => (hwaits j hj).1) (fun r j hj => ?_) (fun _ _ _ => rfl)
      (fun j hj => hother j (hwaits j hj).2) (fun j hj => ?_)
    · have hne : j ≠ sn := fun heq => hchains r (heq ▸ hj)
      obtain ⟨h1, h2, h3⟩ := h.counts.members r j hj
      refine ⟨h1, h2, ?_⟩
      rw [hother j hne]
      exact h3
    · exact count_erase_of_ne (hwaits j hj).2
  · obtain rfl | heq := eq_or_ne j sn
    · have hw : Waits w j := ⟨hj.1, hj.2.1, hnot⟩
      exact .inr (h.ready_sources hw (hready hj.1))
    · rw [hother j heq] at hiss
      exact .inl hiss
  · obtain ⟨-, -, h3, h4⟩ := h.list t j hj
    rw [hinst]
    exact ⟨h3, h4⟩
  · obtain ⟨h1, h2, h3⟩ := h.done j hj
    rw [hinst, h2]
    exact ⟨h1, rfl, h3⟩
  · rcases hj with hj | hj
    · exact h.known j (.inr (.inl hj))
    · exact h.known j (.inr (.inr (mem_of_mem_erase hj)))

/-- After the producer has completed, the registers that it writes are not pending. -/
theorem Tracks.pending_completed (hknown : sn ∈ w.history)
    (hsq : w.squashed sn = false) (hcomp : w.completed sn = false) (iq : InstQueue) :
    pending numPhysRegs { w with iq, completed := update w.completed sn true } =
      fun r => pending numPhysRegs w r &&
        !decide (r < numPhysRegs ∧ r ∈ (w.iq.insts sn).destRegs) := by
  funext r
  unfold pending
  by_cases hd : r < numPhysRegs ∧ r ∈ (w.iq.insts sn).destRegs
  · rw [h.owns sn hknown hcomp hsq r hd.2 hd.1]
    simp [hd]
  rw [decide_eq_false hd, Bool.not_false, Bool.and_true]
  by_cases hlt : r < numPhysRegs
  · cases hp : w.producerOf r with
    | none => rfl
    | some p =>
      have hne : p ≠ sn := fun heq => hd ⟨hlt, heq ▸ (h.produces r p hp).2⟩
      simp [hne]
  · simp [hlt]

theorem Tracks.wakeDependents (hen : Enabled numPhysRegs w (.wakeDependents sn)) :
    Tracks numPhysRegs
      { w with
        iq := w.iq.wakeDependents numPhysRegs sn
        completed := update w.completed sn true } := by
  obtain ⟨hknown, hsq, hissued, hcomp⟩ := hen
  obtain ⟨hcounts, hwoken⟩ := h.counts.wakeDependents numPhysRegs sn
  have hissued' : ∀ j, ((w.iq.wakeDependents numPhysRegs sn).insts j).issued =
      (w.iq.insts j).issued := fun j => congrArg (·.issued) (hwoken.insts j)
  have hmono : ∀ j, w.completed j = true → update w.completed sn true j = true := by
    intro j hj
    by_cases heq : j = sn
    · rw [heq, update_self]
    · rw [update_of_ne heq, hj]
  have hwaits : Waits
      { w with
        iq := w.iq.wakeDependents numPhysRegs sn
        completed := update w.completed sn true } = Waits w := by
    funext j
    unfold Waits
    rw [hissued' j]
  refine h.advance ⟨rfl, rfl, rfl, rfl, fun j => congrArg (·.toIqInst) (hwoken.insts j),
    fun j _ => congrArg (·.readySrcRegIdx) (hwoken.insts j), hmono, fun _ hj => hj,
    fun t => ?_⟩ ?_ (fun r p hlt hp => ?_) (fun j _ hiss => ?_)
    (fun _ _ _ hp _ _ _ => hp) (fun j hj => ?_) (fun t j hj => ?_) (fun j hj => ?_) (fun j hj => ?_)
  · rw [hwoken.instList]
  · rw [hwaits, h.pending_completed hknown hsq hcomp]
    exact hcounts
  · -- the scoreboard
    change (w.iq.wakeDependents numPhysRegs sn).regScoreboard r = update w.completed sn true p
    rw [hwoken.regScoreboard, h.board r p hlt hp]
    obtain rfl | heq := eq_or_ne p sn
    · simp [hlt, (h.produces r p hp).2]
    have hnot : ¬ (r < numPhysRegs ∧ r ∈ (w.iq.insts sn).destRegs) := by
      intro hd
      have howner := h.owns sn hknown hcomp hsq r hd.2 hd.1
      rw [hp] at howner
      exact heq (Option.some.inj howner)
    rw [update_of_ne heq, decide_eq_false hnot, Bool.or_false]
  · exact .inl ((hissued' j).symm.trans hiss)
  · rw [hwaits] at hj
    rw [hwoken.instList]
    exact h.listed j hj
  · rw [hwoken.instList] at hj
    obtain ⟨-, -, h3, h4⟩ := h.list t j hj
    exact ⟨h3, (congrArg IqEntry.squashedInIQ (hwoken.insts j)).trans h4⟩
  · change update w.completed sn true j = true at hj
    have hdone := congrArg IqEntry.memOpDone (hwoken.insts j)
    rw [hissued']
    obtain rfl | heq := eq_or_ne j sn
    · exact ⟨hknown, hissued, fun href => hdone.trans (by simp [opDone, href])⟩
    · rw [update_of_ne heq] at hj
      obtain ⟨h1, h2, h3⟩ := h.done j hj
      exact ⟨h1, h2, fun href => hdone.trans (by simp [opDone, h3 href])⟩
  · rcases hj with hj | hj
    · exact h.known j (.inr (.inl hj))
    · rcases hwoken.readyInsts j hj with hold | hw
      · exact h.known j (.inr (.inr hold))
      · exact h.known j (.inl hw.1)

theorem Tracks.commit (hen : Enabled numPhysRegs w (.commit tid sn)) :
    Tracks numPhysRegs { w with iq := w.iq.commit tid sn } := by
  have hsub : ∀ t, ((w.iq.commit tid sn).instList t).Sublist (w.iq.instList t) := by
    intro t
    change (update w.iq.instList tid _ t).Sublist _
    obtain rfl | ht := eq_or_ne t tid
    · rw [update_self]
      exact dropWhile_sublist _
    · rw [update_of_ne ht]
  refine h.advance ⟨rfl, rfl, rfl, rfl, fun _ => rfl, fun _ _ => rfl, fun _ hj => hj,
    fun _ hj => hj,
    hsub⟩ ?_ h.board (fun j _ hiss => .inl hiss) (fun _ _ _ hp _ _ _ => hp) (fun j hj => ?_)
    (fun t j hj => (h.list t j ((hsub t).subset hj)).2.2) h.done
    (fun j hj => h.known j (hj.elim (fun hs => .inr (.inl hs)) (fun hr => .inr (.inr hr))))
  · exact ⟨h.counts.members, h.counts.counted⟩
  -- what has committed has issued
  have hin := h.listed j hj
  change j ∈ update w.iq.instList tid _ _
  by_cases ht : (w.iq.insts j).threadNumber = tid
  · rw [ht] at hin ⊢
    rw [update_self]
    rw [← takeWhile_append_dropWhile (p := fun j => decide (j ≤ sn)) (l := w.iq.instList tid)]
      at hin
    rcases mem_append.mp hin with htake | hdrop
    · have hle : j ≤ sn := by simpa using mem_takeWhile_imp htake
      have hiss := hen j ((takeWhile_sublist _).subset htake) hle
      have hno : (w.iq.insts j).issued = false := hj.2.2
      rw [hiss] at hno
      cases hno
    · exact hdrop
  · rw [update_of_ne ht]
    exact hin

/-- The sources of an instruction that waits: those that are pending have not been marked. -/
theorem Tracks.unmarked_eq (hj : Active w j) (hr : pending numPhysRegs w r = true) :
    unmarked numPhysRegs (w.iq.insts j).readySrcRegIdx (w.iq.insts j).srcRegs.zipIdx r =
      (w.iq.insts j).srcRegs.count r := by
  have hlt : r < numPhysRegs := by
    unfold pending at hr
    exact of_decide_eq_true (Bool.and_eq_true_iff.mp hr).1
  have hfst : (w.iq.insts j).srcRegs.count r =
      (w.iq.insts j).srcRegs.zipIdx.countP (fun src => src.1 == r) := by
    conv_lhs => rw [← zipIdx_map_fst 0 (w.iq.insts j).srcRegs]
    rw [List.count, countP_map]
    rfl
  rw [hfst]
  refine countP_congr (fun src hsrc => ?_)
  simp only [Bool.and_eq_true, Bool.not_eq_true', decide_eq_true_eq, beq_iff_eq]
  refine ⟨fun hall => hall.2, fun heq => ⟨⟨?_, heq ▸ hlt⟩, heq⟩⟩
  refine eq_false_of_ne_true (fun hmark => ?_)
  have hno := h.marked j hj src hsrc hmark
  rw [heq, hr] at hno
  cases hno

/-- An instruction in a list can be taken out of the chains. -/
theorem Tracks.removable (hj : j ∈ w.iq.instList t) : Removable numPhysRegs w.iq j := by
  obtain ⟨hknown, -, hsq, -⟩ := h.list t j hj
  have hnot : ¬ Waits w j → ∀ r, j ∉ w.iq.dependGraph r :=
    fun hno r hmem => hno (h.counts.members r j hmem)
  unfold Removable
  split_ifs with hlook
  · obtain ⟨hstate, hin⟩ := Bool.and_eq_true_iff.mp hlook
    have htracked : w.tracked j = true := (h.kinds j hknown).trans hin
    have hactive : Active w j := by
      refine ⟨htracked, hsq, eq_false_of_ne_true (fun hcomp => ?_)⟩
      obtain ⟨-, hissued, hmem⟩ := h.done j hcomp
      rw [hissued, Bool.not_true, Bool.false_or, Bool.and_eq_true_iff] at hstate
      rw [hmem hstate.1] at hstate
      cases hstate.2
    intro r
    cases hr : pending numPhysRegs w r with
    | false => exact .inl (h.counts.chain_nil hr)
    | true =>
      right
      rw [h.unmarked_eq hactive hr]
      by_cases hiss : (w.iq.insts j).issued = true
      · have hnone : r ∉ (w.iq.insts j).srcRegs := by
          intro hmem
          rw [h.issued j hactive hiss r hmem] at hr
          cases hr
        have hw : ¬ Waits w j := fun hw => by
          have hno := hw.2.2
          rw [hiss] at hno
          cases hno
        rw [count_eq_zero.mpr hnone, count_eq_zero.mpr (hnot hw r)]
      · have hw : Waits w j := ⟨htracked, hsq, eq_false_of_ne_true hiss⟩
        rw [h.counts.chain j hw r, hr, if_pos rfl]
  · refine hnot (fun hw => hlook ?_)
    unfold looksUp
    rw [hw.2.2, ← h.kinds j hknown, hw.1]
    rfl

/-- A squash takes the younger ones of a thread out and keeps the others tracked. -/
theorem Tracks.squash (tid squashedSeqNum : Nat) :
    ∃ w', apply numPhysRegs w (.squash tid squashedSeqNum) = some w' ∧ Tracks numPhysRegs w' := by
  obtain ⟨iq, gone, hiq, hsquashed, hgone, hlists⟩ := squash_spec
    tid squashedSeqNum (h.sorted tid)
    (fun j hj => ⟨(h.list tid j hj).2.1, (h.list tid j hj).2.2.2⟩) (fun j hj => h.removable hj)
  refine ⟨_, by rw [apply, hiq]; rfl, ?_⟩
  dsimp only
  generalize hw' : ({ w with iq := iq, squashed := _ } : IqRun) = w'
  have hnew : ∀ j, w'.squashed j = (w.squashed j ||
      decide (j ∈ w.history ∧ (w.iq.insts j).threadNumber = tid ∧ squashedSeqNum < j)) := by
    intro j
    rw [← hw']
  have hiq' : w'.iq = iq := by rw [← hw']
  have halive : ∀ j, w'.squashed j = false → w.squashed j = false ∧
      (j ∈ w.history → (w.iq.insts j).threadNumber = tid → j ≤ squashedSeqNum) := by
    intro j hj
    rw [hnew, Bool.or_eq_false_iff, decide_eq_false_iff_not] at hj
    exact ⟨hj.1, fun hknown htid => not_lt.mp (fun hlt => hj.2 ⟨hknown, htid, hlt⟩)⟩
  have hstays : ∀ j, w'.squashed j = false → j ∉ gone := by
    intro j hj hmem
    obtain ⟨hin, hlt⟩ := (hgone j).mp hmem
    obtain ⟨hknown, htid, -⟩ := h.list tid j hin
    exact not_le.mpr hlt ((halive j hj).2 hknown htid)
  have hsame : ∀ j, w'.squashed j = false → iq.insts j = w.iq.insts j :=
    fun j hj => hsquashed.others j (hstays j hj)
  have hwaits : ∀ j, Waits w' j → Waits w j := by
    intro j hj
    obtain ⟨h1, h2, h3⟩ := hj
    rw [hiq', hsame j h2] at h3
    rw [← hw'] at h1
    exact ⟨h1, (halive j h2).1, h3⟩
  have hin : ∀ t j, j ∈ w'.iq.instList t ↔ j ∈ w.iq.instList t ∧
      (t = tid → j ≤ squashedSeqNum) := by
    intro t j
    rw [hiq', hlists, mem_filter, decide_eq_true_eq]
  have hentry : ∀ {α : Type} (f : IqEntry → α), (∀ e, f (squashedEntry e) = f e) →
      ∀ j, f (iq.insts j) = f (w.iq.insts j) := by
    intro α f hf j
    rcases hsquashed.entry j with heq | heq
    · rw [heq]
    · rw [heq, hf]
  refine h.advance ⟨by rw [← hw'], by rw [← hw'], by rw [← hw'], by rw [← hw'], fun j => ?_,
    fun j _ => ?_, fun j hj => ?_, fun j hj => ?_, fun t => ?_⟩ ?_ (fun r p hlt hp => ?_)
    (fun j hj hiss => ?_) (fun j hj p hp htid hlt hknown => ?_) (fun j hj => ?_) (fun t j hj => ?_)
    (fun j hj => ?_) (fun j hj => ?_)
  · rw [hiq']
    exact hentry toIqInst (fun _ => rfl) j
  · rw [hiq']
    exact hentry readySrcRegIdx (fun _ => rfl) j
  · rw [← hw']
    exact hj
  · rw [hnew, hj, Bool.true_or]
  · rw [hiq', hlists]
    exact filter_sublist
  · -- the chains lose the instructions that are squashed
    have hpending : pending numPhysRegs w' = pending numPhysRegs w := by rw [← hw']; rfl
    rw [hpending, hiq']
    refine h.counts.remove hwaits (fun r j hj => ?_) (fun r j hj => ?_)
      (fun j hj => hsame j hj.2.1) (fun j _ => by rw [hsquashed.readyInsts])
    · rw [hsquashed.graph, mem_filter, decide_eq_true_eq] at hj
      obtain ⟨h1, h2, h3⟩ := h.counts.members r j hj.1
      refine ⟨by rw [← hw']; exact h1, ?_, ?_⟩
      · rw [hnew, h2, Bool.false_or, decide_eq_false_iff_not]
        intro hyoung
        have hlisted := h.listed j ⟨h1, h2, h3⟩
        rw [hyoung.2.1] at hlisted
        exact hj.2 ((hgone j).mpr ⟨hlisted, hyoung.2.2⟩)
      · rw [hiq', hsquashed.others j hj.2]
        exact h3
    · rw [hsquashed.graph, count_filter (by simpa using hstays j hj.2.1)]
  · rw [hiq', hsquashed.regScoreboard, ← hw']
    exact h.board r p hlt hp
  · rw [hiq', hsame j hj.2.1] at hiss
    exact .inl hiss
  · -- a producer that is squashed is older than its consumers
    have htracked : w.tracked j = true := by
      have := hj.1
      rwa [← hw'] at this
    have hle := (halive j hj.2.1).2 (h.known j (.inl htracked))
    rw [hnew, hp, Bool.false_or, decide_eq_false_iff_not]
    intro hyoung
    have := hle (htid.symm.trans hyoung.2.1)
    omega
  · have hw := hwaits j hj
    exact (hin _ j).mpr ⟨h.listed j hw, (halive j hj.2.1).2 (h.known j (.inl hw.1))⟩
  · obtain ⟨hold, hle⟩ := (hin t j).mp hj
    obtain ⟨h1, h2, h3, h4⟩ := h.list t j hold
    have halive' : w'.squashed j = false := by
      rw [hnew, h3, Bool.false_or, decide_eq_false_iff_not]
      intro hyoung
      have := hle (h2.symm.trans hyoung.2.1)
      omega
    rw [hiq', hsame j halive']
    exact ⟨halive', h4⟩
  · rw [← hw'] at hj
    obtain ⟨h1, h2, h3⟩ := h.done j hj
    rw [hiq']
    refine ⟨h1, ?_, fun href => ?_⟩
    · rcases hsquashed.entry j with heq | heq
      · rw [heq, h2]
      · rw [heq]
        rfl
    · rw [hentry memOpDone (fun _ => rfl) j]
      exact h3 href
  · rcases hj with hj | hj
    · rw [hnew, Bool.or_eq_true, decide_eq_true_eq] at hj
      exact hj.elim (fun hold => h.known j (.inr (.inl hold))) (fun hyoung => hyoung.1)
    · rw [hiq', hsquashed.readyInsts] at hj
      exact h.known j (.inr (.inr hj))

end

theorem tracks_initial : Tracks numPhysRegs initial where
  counts := ⟨nofun, fun _ hj => (by cases hj.1)⟩
  board _ _ _ hp := by cases hp
  marked _ hj := by cases hj.1
  issued _ hj := by cases hj.1
  sources _ hj := by cases hj.1
  owns _ hp := by cases hp
  produces _ _ hp := by cases hp
  listed _ hj := by cases hj.1
  list _ _ hj := by cases hj
  sorted _ := List.Pairwise.nil
  last _ hj := by cases hj
  done _ hj := by cases hj
  known _ hj := by rcases hj with hj | hj | hj <;> cases hj
  kinds _ hj := by cases hj

theorem Tracks.step (h : Tracks numPhysRegs w) (hen : Enabled numPhysRegs w m) :
    ∃ w', apply numPhysRegs w m = some w' ∧ Tracks numPhysRegs w' := by
  cases m with
  | insert sn inst ready storeFound => exact h.insert hen
  | insertNonSpec sn inst ready => exact h.insertNonSpec hen
  | issue sn => exact ⟨_, rfl, h.issue hen⟩
  | wakeDependents sn => exact ⟨_, rfl, h.wakeDependents hen⟩
  | commit tid sn => exact ⟨_, rfl, h.commit hen⟩
  | squash tid squashedSeqNum => exact h.squash tid squashedSeqNum

theorem Reachable.tracks (hw : (machine numPhysRegs).Reachable w) : Tracks numPhysRegs w := by
  refine hw.invariant (I := Tracks numPhysRegs) (fun w hinit => ?_) (fun w m w' h hstep => ?_)
  · rw [show w = initial from hinit]
    exact tracks_initial
  · obtain ⟨w'', happly, h'⟩ := h.step hstep.1
    rw [hstep.2] at happly
    rwa [Option.some.inj happly]

/-- The sources that are pending are counted over their registers. -/
theorem sum_count (l : List Nat) (hlt : ∀ r ∈ l, p r = true → r < n) :
    ∑ r ∈ Finset.range n, (if p r then l.count r else 0) = l.countP p := by
  induction l with
  | nil => simp
  | cons a l ih =>
    have ih := ih (fun r hr => hlt r (.tail _ hr))
    have hsplit : ∀ r, (if p r then (a :: l).count r else 0) =
        (if p r then l.count r else 0) + (if r = a then (if p a then 1 else 0) else 0) := by
      intro r
      rw [count_cons]
      obtain rfl | hr := eq_or_ne r a
      · cases p r <;> simp
      · have hne : ¬ a = r := Ne.symm hr
        cases p r <;> simp [hr, hne]
    rw [Finset.sum_congr rfl (fun r _ => hsplit r), Finset.sum_add_distrib, ih, countP_cons,
      Finset.sum_ite_eq']
    cases hp : p a with
    | false => simp
    | true => simp [hlt a mem_cons_self hp]

theorem Tracks.ready_iff (h : Tracks numPhysRegs w) (hj : Waits w j) :
    j ∈ w.iq.readyInsts ↔ ∀ r ∈ (w.iq.insts j).srcRegs, pending numPhysRegs w r = false := by
  refine ⟨h.ready_sources hj, fun hall => ?_⟩
  have hlen : (w.iq.insts j).readyRegs = (w.iq.insts j).srcRegs.length := by
    rw [(h.counts.counted j hj).ready, countP_eq_length]
    exact fun r hr => by simp [hall r hr]
  have honce := (h.counts.counted j hj).once
  rw [if_pos hlen] at honce
  exact count_pos_iff.mp (by omega)

theorem Tracks.readyRegs_add (h : Tracks numPhysRegs w) (hj : Waits w j) :
    (w.iq.insts j).readyRegs + ∑ r ∈ Finset.range numPhysRegs, (w.iq.dependGraph r).count j =
      (w.iq.insts j).srcRegs.length := by
  rw [Finset.sum_congr rfl (fun r _ => h.counts.chain j hj r), sum_count,
    (h.counts.counted j hj).ready]
  · have hsplit := length_eq_countP_add_countP (pending numPhysRegs w)
      (l := (w.iq.insts j).srcRegs)
    rw [hsplit, add_comm]
    congr 2
    funext r
    cases pending numPhysRegs w r <;> rfl
  · intro r _ hp
    unfold pending at hp
    exact of_decide_eq_true (Bool.and_eq_true_iff.mp hp).1

/-- An instruction is in the chain of a register once for every source that its producer has still
to write, the other sources are counted as ready, and an instruction is ready exactly when all its
producers have completed. No step panics or fails an assertion. -/
theorem dependence_tracking_exact (numPhysRegs : Nat) (w : IqRun)
    (hw : (machine numPhysRegs).Reachable w) :
    (∀ j, Waits w j → (∀ r, r < numPhysRegs → (w.iq.dependGraph r).count j =
        if pending numPhysRegs w r then (w.iq.insts j).srcRegs.count r else 0) ∧
      (w.iq.insts j).readyRegs + ∑ r ∈ Finset.range numPhysRegs, (w.iq.dependGraph r).count j =
        (w.iq.insts j).srcRegs.length ∧
      (j ∈ w.iq.readyInsts ↔ ∀ r ∈ (w.iq.insts j).srcRegs, pending numPhysRegs w r = false)) ∧
    ∀ m, Enabled numPhysRegs w m → (apply numPhysRegs w m).isSome := by
  have h := Reachable.tracks hw
  refine ⟨fun j hj => ⟨fun r _ => h.counts.chain j hj r, h.readyRegs_add hj, h.ready_iff hj⟩,
    fun m hen => ?_⟩
  obtain ⟨w', happly, -⟩ := h.step hen
  rw [happly]
  rfl

def move (numPhysRegs : Nat) (w : IqRun) (m : Move) : Option IqRun :=
  if Enabled numPhysRegs w m then apply numPhysRegs w m else none

theorem step_of_move (numPhysRegs : Nat) (w : IqRun) (m : Move) (w' : IqRun)
    (h : move numPhysRegs w m = some w') : (machine numPhysRegs).step w m w' :=
  Option.ite_none_right_eq_some.mp h

/-- A consumer that reads the register of its producer twice and one that is ready waits in the
chain of the register twice, also after another consumer of the register has been squashed. -/
theorem dependence_tracking_exact_consumer :
    ∃ w, (machine 4).Reachable w ∧ Waits w 2 ∧ (w.iq.dependGraph 0).count 2 = 2 ∧
      (w.iq.insts 2).readyRegs = 1 ∧ (w.iq.insts 2).readyRegs +
        ∑ r ∈ Finset.range 4, (w.iq.dependGraph r).count 2 = (w.iq.insts 2).srcRegs.length := by
  obtain ⟨w, hw, hwaits, hcount, hready⟩ := Machine.exists_run (step_of_move 4)
    (.start (s := initial) rfl) [.insert 1 { destRegs := [0] } (fun _ => false) false,
      .insert 2 { srcRegs := [0, 3, 0], destRegs := [1] } (fun i => i == 1) false,
      .insert 3 { srcRegs := [1, 0], isMemRef := true, isLoad := true } (fun _ => false) true,
      .issue 1, .squash 0 2] (P := fun w => Waits w 2 ∧ (w.iq.dependGraph 0).count 2 = 2 ∧
      (w.iq.insts 2).readyRegs = 1) (by decide)
  exact ⟨w, hw, hwaits, hcount, hready, ((dependence_tracking_exact 4 w hw).1 2 hwaits).2.1⟩

/-- The scoreboard tells whether the last producer of a register has completed. Of the instructions
that `insert` has put into the queue, which tracks the sources of these and not of those that come
by `insertNonSpec`: the producer of a source of one that has not completed is older, of the same
thread and not squashed, so no squash parts the two; and the list of a thread has what waits, in
program order. Nothing that is squashed is in a list. -/
theorem producers_in_flight (numPhysRegs : Nat) (w : IqRun)
    (hw : (machine numPhysRegs).Reachable w) :
    (∀ r p, r < numPhysRegs → w.producerOf r = some p → w.iq.regScoreboard r = w.completed p) ∧
    (∀ j, Active w j → ∀ r ∈ (w.iq.insts j).srcRegs, r < numPhysRegs → ∀ p,
      w.producerOf r = some p →
      w.squashed p = false ∧ (w.iq.insts p).threadNumber = (w.iq.insts j).threadNumber ∧ p < j) ∧
    (∀ j, Waits w j → j ∈ w.iq.instList (w.iq.insts j).threadNumber) ∧
    ∀ t, (w.iq.instList t).Pairwise (fun i j => i < j) ∧
      ∀ j ∈ w.iq.instList t, (w.iq.insts j).threadNumber = t ∧ w.squashed j = false := by
  have h := Reachable.tracks hw
  refine ⟨h.board, h.sources, h.listed, fun t => ⟨h.sorted t, fun j hj => ?_⟩⟩
  obtain ⟨-, htid, hsq, -⟩ := h.list t j hj
  exact ⟨htid, hsq⟩

/-- Two instructions of two threads wait, one of them for a producer that has been issued. -/
theorem producers_in_flight_two : ∃ w, (machine 4).Reachable w ∧ Waits w 2 ∧ Waits w 3 ∧
    w.producerOf 0 = some 1 ∧ w.iq.regScoreboard 0 = w.completed 1 ∧ w.squashed 1 = false ∧
    (w.iq.insts 1).threadNumber = (w.iq.insts 2).threadNumber ∧ 2 ∈ w.iq.instList 0 ∧
    3 ∈ w.iq.instList 1 ∧ (w.iq.instList 0).Pairwise (fun i j => i < j) := by
  obtain ⟨w, hw, h2, h3, hactive, hp, hsrc, ht2, ht3⟩ := Machine.exists_run (step_of_move 4)
    (.start (s := initial) rfl) [.insert 1 { destRegs := [0] } (fun _ => false) false,
      .insert 2 { srcRegs := [0] } (fun _ => false) false,
      .insert 3 { threadNumber := 1 } (fun _ => false) false, .issue 1]
    (P := fun w => Waits w 2 ∧ Waits w 3 ∧
      (w.tracked 2 = true ∧ w.squashed 2 = false ∧ w.completed 2 = false) ∧
      w.producerOf 0 = some 1 ∧ 0 ∈ (w.iq.insts 2).srcRegs ∧ (w.iq.insts 2).threadNumber = 0 ∧
      (w.iq.insts 3).threadNumber = 1) (by decide)
  obtain ⟨hboard, hsources, hlisted, hlist⟩ := producers_in_flight 4 w hw
  obtain ⟨hlive, hthread, -⟩ := hsources 2 hactive 0 hsrc (by decide) 1 hp
  exact ⟨w, hw, h2, h3, hp, hboard 0 1 (by decide) hp, hlive, hthread, ht2 ▸ hlisted 2 h2,
    ht3 ▸ hlisted 3 h3, (hlist 0).1⟩

end IqRun

end Gem5.O3
