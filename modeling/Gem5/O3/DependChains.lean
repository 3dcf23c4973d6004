import Gem5.O3.InstQueue

namespace Gem5.O3.InstQueue

open List Function IqEntry

/-! The chains and the counters of ready sources. -/

section Updates

variable (q : InstQueue) (sn : Nat) (f : IqEntry → IqEntry)

@[simp] theorem modify_readyInsts : (q.modify sn f).readyInsts = q.readyInsts := rfl
@[simp] theorem modify_self : (q.modify sn f).insts sn = f (q.insts sn) := update_self _ _ _

theorem modify_ne (h : j ≠ sn) : (q.modify sn f).insts j = q.insts j :=
  update_of_ne h _ _

theorem addIfReady_eq : q.addIfReady sn = { q with
    readyInsts := if (q.insts sn).canIssue then sn :: q.readyInsts else q.readyInsts } := by
  unfold addIfReady
  split <;> rfl

end Updates

/-- An instruction is on the ready list once all its sources are ready, and once only. -/
structure Reported (e : IqEntry) (reports : Nat) : Prop where
  unready : e.readyRegs < e.srcRegs.length → e.canIssue = false
  once : reports = if e.readyRegs = e.srcRegs.length then 1 else 0

/-- An instruction is in the chains of the registers that are pending, once for every source, and
the other sources are counted as ready. -/
structure Counted (pending : Nat → Bool) (e : IqEntry) (chain : Nat → Nat) (reports : Nat) : Prop
    extends Reported e reports where
  chain : ∀ r, chain r = if pending r then e.srcRegs.count r else 0
  ready : e.readyRegs = e.srcRegs.countP (fun r => !pending r)

/-- The chains have the instructions that wait, which are counted, and no others. -/
structure Counts (q : InstQueue) (waits : Nat → Prop) (pending : Nat → Bool) : Prop where
  members : ∀ r j, j ∈ q.dependGraph r → waits j
  counted : ∀ j, waits j → Counted pending (q.insts j) (fun r => (q.dependGraph r).count j)
    (q.readyInsts.count j)

variable {q q' : InstQueue} {waits : Nat → Prop} {pending ready : Nat → Bool} {numPhysRegs : Nat}

section

variable (h : q.Counts waits pending)
include h

/-- How often an instruction that waits is in a chain. -/
theorem Counts.chain (j : Nat) (hj : waits j) (r : Nat) :
    (q.dependGraph r).count j = if pending r then (q.insts j).srcRegs.count r else 0 :=
  (h.counted j hj).chain r

theorem Counts.chain_nil (hr : pending r = false) : q.dependGraph r = [] := by
  refine eq_nil_iff_forall_not_mem.mpr (fun j hj => ?_)
  have hcount := h.chain j (h.members r j hj) r
  rw [hr] at hcount
  exact count_eq_zero.mp hcount hj

theorem Counts.mem_srcRegs (hj : j ∈ q.dependGraph r) : r ∈ (q.insts j).srcRegs := by
  have hpos := count_pos_iff.mpr hj
  rw [h.chain j (h.members r j hj) r] at hpos
  split at hpos
  · exact count_pos_iff.mp hpos
  · cases hpos

/-- Those that are left wait as before, and the others have gone from the chains. -/
theorem Counts.remove {left : Nat → Prop}
    (hsub : ∀ j, left j → waits j) (hgraph : ∀ r j, j ∈ q'.dependGraph r → left j)
    (hcount : ∀ r j, left j → (q'.dependGraph r).count j = (q.dependGraph r).count j)
    (hinsts : ∀ j, left j → q'.insts j = q.insts j)
    (hready : ∀ j, left j → q'.readyInsts.count j = q.readyInsts.count j) :
    q'.Counts left pending := by
  refine ⟨hgraph, fun j hj => ?_⟩
  rw [hinsts j hj, hready j hj, funext (fun r => hcount r j hj)]
  exact h.counted j (hsub j hj)

end

theorem countP_update (pending : Nat → Bool) (d : Nat) (l : List Nat) :
    l.countP (fun r => !update pending d false r) =
      l.countP (fun r => !pending r) + if pending d then l.count d else 0 := by
  induction l with
  | nil => simp
  | cons r l ih =>
    rw [countP_cons, countP_cons, count_cons, ih]
    obtain rfl | hr := eq_or_ne r d
    · cases hp : pending r <;> simp
      omega
    · simp [hr]
      omega

/-! A register is written: the instructions in its chain are woken. -/

theorem wakeInst_insts (q : InstQueue) (sn j : Nat) :
    (q.wakeInst sn).insts j = if j = sn then (q.insts j).markSrcRegReady else q.insts j := by
  rw [wakeInst, addIfReady_eq]
  by_cases hj : j = sn
  · simp [hj]
  · simp [hj, modify_ne]

theorem wakeInst_count (q : InstQueue) (sn j : Nat) : (q.wakeInst sn).readyInsts.count j =
    q.readyInsts.count j +
      if (q.insts sn).markSrcRegReady.canIssue = true ∧ j = sn then 1 else 0 := by
  rw [wakeInst, addIfReady_eq, modify_self, modify_readyInsts]
  dsimp only
  split
  · rename_i hcan
    rw [count_cons]
    simp [hcan, eq_comm (a := j)]
  · rename_i hcan
    simp [hcan]

/-- An instruction that has a source left to wait for is reported when it is the last one. -/
theorem Reported.wakeInst (h : Reported (q.insts j) (q.readyInsts.count j)) (sn : Nat)
    (hlt : j = sn → (q.insts j).readyRegs < (q.insts j).srcRegs.length) :
    Reported ((q.wakeInst sn).insts j) ((q.wakeInst sn).readyInsts.count j) := by
  rw [wakeInst_insts, wakeInst_count, h.once]
  obtain rfl | hj := eq_or_ne j sn
  · have hlt := hlt rfl
    have hcan := h.unready hlt
    rw [if_pos rfl, if_neg hlt.ne]
    refine ⟨fun hless => ?_, ?_⟩
    · have hless : (q.insts j).readyRegs + 1 < (q.insts j).srcRegs.length := hless
      simp [markSrcRegReady, hless.ne, hcan]
    · simp [markSrcRegReady, hcan]
  · simpa [hj] using ⟨h.unready, rfl⟩

/-- The entries are the same up to what the count of the sources changes. -/
def SameInst (e e' : IqEntry) : Prop :=
  ({ e' with readyRegs := 0, canIssue := false } : IqEntry) =
    { e with readyRegs := 0, canIssue := false }

/-- What waking some of the instructions leaves as it is. -/
structure Wakes (q q' : InstQueue) (waits : Nat → Prop) : Prop where
  insts : ∀ j, SameInst (q.insts j) (q'.insts j)
  instList : q'.instList = q.instList
  readyInsts : ∀ j ∈ q'.readyInsts, j ∈ q.readyInsts ∨ waits j

theorem Wakes.refl (q : InstQueue) (waits : Nat → Prop) : Wakes q q waits :=
  ⟨fun _ => rfl, rfl, fun _ hj => .inl hj⟩

theorem Wakes.trans (h : Wakes q q' waits) (h' : Wakes q' q'' waits) : Wakes q q'' waits where
  insts j := (h'.insts j).trans (h.insts j)
  instList := h'.instList.trans h.instList
  readyInsts j hj := (h'.readyInsts j hj).elim (h.readyInsts j) .inr

theorem Wakes.srcRegs (h : Wakes q q' waits) (j : Nat) :
    (q'.insts j).srcRegs = (q.insts j).srcRegs := congrArg (·.srcRegs) (h.insts j)

/-- One source of a woken instruction is marked, and it is ready once all are. -/
theorem wakes_wakeInst (q : InstQueue) (hsn : waits sn) : Wakes q (q.wakeInst sn) waits where
  insts j := by
    rw [wakeInst_insts]
    split <;> rfl
  instList := by rw [wakeInst, addIfReady_eq]; rfl
  readyInsts j hj := by
    rw [wakeInst, addIfReady_eq] at hj
    dsimp only at hj
    split at hj
    · rcases mem_cons.mp hj with rfl | hj
      · exact .inr hsn
      · exact .inl hj
    · exact .inl hj

/-- The rest `l` of a chain is woken: every occurrence counts one source as ready. -/
theorem foldl_wakeInst {l : List Nat} {total : Nat → Nat} (hmem : ∀ j ∈ l, waits j)
    (hready : ∀ j, waits j → (q.insts j).readyRegs + l.count j = total j)
    (hle : ∀ j, waits j → total j ≤ (q.insts j).srcRegs.length)
    (hreported : ∀ j, waits j → Reported (q.insts j) (q.readyInsts.count j)) :
    ∃ q', l.foldl wakeInst q = q' ∧ (∀ j, waits j → (q'.insts j).readyRegs = total j) ∧
      (∀ j, waits j → Reported (q'.insts j) (q'.readyInsts.count j)) ∧ Wakes q q' waits ∧
      q'.dependGraph = q.dependGraph ∧ q'.regScoreboard = q.regScoreboard := by
  induction l generalizing q with
  | nil => exact ⟨q, rfl, by simpa using hready, hreported, .refl q waits, rfl, rfl⟩
  | cons sn l ih =>
    have hwakes := wakes_wakeInst q (hmem sn mem_cons_self)
    simp only [count_cons, beq_iff_eq] at hready
    obtain ⟨q', hq', h1, h2, h3, h4, h5⟩ := ih (q := q.wakeInst sn)
      (fun j hj => hmem j (.tail _ hj))
      (fun j hj => by
        rw [← hready j hj, wakeInst_insts]
        split_ifs with hsn hne hne
        · change (q.insts j).readyRegs + 1 + _ = _
          omega
        · exact absurd hsn.symm hne
        · exact absurd hne.symm hsn
        · rfl)
      (fun j hj => hwakes.srcRegs j ▸ hle j hj)
      (fun j hj => (hreported j hj).wakeInst sn (fun heq => by
        have := hready j hj
        have := hle j hj
        rw [if_pos heq.symm] at *
        omega))
    refine ⟨q', hq', h1, h2, hwakes.trans h3, h4.trans ?_, h5.trans ?_⟩
    · rw [wakeInst, addIfReady_eq]; rfl
    · rw [wakeInst, addIfReady_eq]; rfl

/-- After a register has been written it is not pending any more. -/
def written (numPhysRegs : Nat) (pending : Nat → Bool) (dest : Nat) : Nat → Bool :=
  if numPhysRegs ≤ dest then pending else Function.update pending dest false

/-- A register is written: all in its chain are woken, and the chain is empty. -/
theorem Counts.wakeReg (h : q.Counts waits pending) (numPhysRegs dest : Nat) :
    (q.wakeReg numPhysRegs dest).Counts waits (written numPhysRegs pending dest) ∧
    Wakes q (q.wakeReg numPhysRegs dest) waits ∧
    (q.wakeReg numPhysRegs dest).regScoreboard = if numPhysRegs ≤ dest then q.regScoreboard
      else update q.regScoreboard dest true := by
  unfold InstQueue.wakeReg written
  split
  · exact ⟨h, .refl q waits, rfl⟩
  obtain ⟨q', hq', hready, hreported, hwakes, hgraph, hboard⟩ := foldl_wakeInst
    (l := q.dependGraph dest) (h.members dest)
    (fun j hj => by rw [(h.counted j hj).ready, h.chain j hj dest, ← countP_update])
    (fun j _ => countP_le_length) (fun j hj => (h.counted j hj).toReported)
  rw [hq']
  refine ⟨⟨fun r j hj => ?_, fun j hj => ⟨hreported j hj, fun r => ?_, ?_⟩⟩, { hwakes with }, ?_⟩
  · dsimp only at hj
    rw [hgraph] at hj
    by_cases hr : r = dest
    · rw [hr, update_self] at hj
      cases hj
    · rw [update_of_ne hr] at hj
      exact h.members r j hj
  · dsimp only
    rw [hgraph, hwakes.srcRegs]
    by_cases hr : r = dest
    · simp [hr]
    · rw [update_of_ne hr, update_of_ne hr]
      exact h.chain j hj r
  · rw [hready j hj, hwakes.srcRegs]
  · dsimp only
    rw [hboard]

theorem decide_mem_cons (hle : numPhysRegs ≤ d) (dests : List Nat) :
    decide (r < numPhysRegs ∧ r ∈ d :: dests) = decide (r < numPhysRegs ∧ r ∈ dests) := by
  rw [decide_eq_decide]
  refine and_congr_right (fun hlt => ?_)
  have hne : r ≠ d := by omega
  simp [hne]

/-- The same for the registers of an instruction, one after the other. -/
theorem Counts.foldl_wakeReg (h : q.Counts waits pending) (numPhysRegs : Nat) (dests : List Nat) :
    (dests.foldl (InstQueue.wakeReg numPhysRegs) q).Counts waits
      (dests.foldl (written numPhysRegs) pending) ∧
    Wakes q (dests.foldl (InstQueue.wakeReg numPhysRegs) q) waits ∧
    ∀ r, (dests.foldl (InstQueue.wakeReg numPhysRegs) q).regScoreboard r =
      (q.regScoreboard r || decide (r < numPhysRegs ∧ r ∈ dests)) := by
  induction dests generalizing q pending with
  | nil => exact ⟨h, .refl q waits, by simp⟩
  | cons d dests ih =>
    obtain ⟨hcounts, hwakes, hboard⟩ := h.wakeReg numPhysRegs d
    obtain ⟨hcounts', hwakes', hboard'⟩ := ih hcounts
    refine ⟨hcounts', hwakes.trans hwakes', fun r => ?_⟩
    rw [foldl_cons, hboard' r, hboard]
    by_cases hle : numPhysRegs ≤ d
    · rw [if_pos hle, decide_mem_cons hle]
    · rw [if_neg hle]
      obtain rfl | hr := eq_or_ne r d
      · simp [not_le.mp hle]
      · simp [hr]

theorem foldl_written (numPhysRegs : Nat) (pending : Nat → Bool) (dests : List Nat) (r : Nat) :
    dests.foldl (written numPhysRegs) pending r =
      (pending r && !decide (r < numPhysRegs ∧ r ∈ dests)) := by
  induction dests generalizing pending with
  | nil => simp
  | cons d dests ih =>
    rw [foldl_cons, ih]
    unfold written
    split_ifs with hle
    · rw [decide_mem_cons ‹_›]
    · obtain rfl | hr := eq_or_ne r d
      · simp [not_le.mp hle]
      · simp [hr]

/-- The entry of an instruction when a producer completes. -/
def opDone (q : InstQueue) (sn j : Nat) : IqEntry :=
  { q.insts j with
    memOpDone := (q.insts j).memOpDone || (decide (j = sn) && (q.insts j).isMemRef) }

/-- What a producer that completes leaves as it is, and what it writes. -/
structure Woken (numPhysRegs : Nat) (q q' : InstQueue) (sn : Nat) (waits : Nat → Prop) : Prop where
  insts : ∀ j, SameInst (q.opDone sn j) (q'.insts j)
  instList : q'.instList = q.instList
  regScoreboard : ∀ r, q'.regScoreboard r =
    (q.regScoreboard r || decide (r < numPhysRegs ∧ r ∈ (q.insts sn).destRegs))
  readyInsts : ∀ j ∈ q'.readyInsts, j ∈ q.readyInsts ∨ waits j

theorem modify_opDone (q : InstQueue) (sn : Nat) :
    (if (q.insts sn).isMemRef then q.modify sn (fun e => { e with memOpDone := true }) else q) =
      { q with insts := q.opDone sn } := by
  have hinsts : ∀ insts, insts = q.opDone sn → { q with insts } = { q with insts := q.opDone sn } :=
    fun insts heq => by rw [heq]
  split_ifs with href
  · refine hinsts _ (funext fun j => ?_)
    obtain rfl | hj := eq_or_ne j sn
    · simp [opDone, href]
    · simp [opDone, hj]
  · refine hinsts q.insts (funext fun j => ?_)
    obtain rfl | hj := eq_or_ne j sn
    · simp [opDone, href]
    · simp [opDone, hj]

/-- An instruction completes, and nothing is pending on it any more. -/
theorem Counts.wakeDependents (h : q.Counts waits pending) (numPhysRegs sn : Nat) :
    (q.wakeDependents numPhysRegs sn).Counts waits
      (fun r => pending r && !decide (r < numPhysRegs ∧ r ∈ (q.insts sn).destRegs)) ∧
    Woken numPhysRegs q (q.wakeDependents numPhysRegs sn) sn waits := by
  have hcounts : Counts { q with insts := q.opDone sn } waits pending := by
    refine ⟨h.members, fun j hj => ?_⟩
    obtain ⟨⟨hunready, honce⟩, hchain, hready⟩ := h.counted j hj
    exact ⟨⟨hunready, honce⟩, hchain, hready⟩
  obtain ⟨hcounts, hwakes, hboard⟩ := hcounts.foldl_wakeReg numPhysRegs (q.insts sn).destRegs
  rw [funext (foldl_written numPhysRegs pending _)] at hcounts
  rw [InstQueue.wakeDependents, modify_opDone]
  exact ⟨hcounts, hwakes.insts, hwakes.instList, hboard, hwakes.readyInsts⟩

/-! An instruction is squashed: it leaves the chains. -/

/-- The sources of an instruction for a register that have not been marked as ready by
themselves. -/
def unmarked (numPhysRegs : Nat) (marked : Nat → Bool) (srcs : List (Nat × Nat)) (r : Nat) : Nat :=
  srcs.countP (fun src => !marked src.2 && decide (src.1 < numPhysRegs) && src.1 == r)

theorem filter_ne_self {l : List Nat} (h : sn ∉ l) : l.filter (fun j => j ≠ sn) = l := by
  refine filter_eq_self.mpr (fun j hj => ?_)
  rw [decide_eq_true_eq]
  exact fun heq => h (heq ▸ hj)

theorem filter_erase (sn : Nat) (l : List Nat) :
    (l.erase sn).filter (fun j => j ≠ sn) = l.filter (fun j => j ≠ sn) := by
  induction l with
  | nil => rfl
  | cons j l ih =>
    rw [erase_cons]
    split_ifs with hj
    · simp [beq_iff_eq.mp hj]
    · rw [filter_cons, filter_cons, ih]

/-- In every chain the instruction occurs as often as it is to be removed, or the chain is empty:
then nothing is removed. -/
theorem foldlM_removeSource (numPhysRegs sn : Nat) (h : ∀ r, q.dependGraph r = [] ∨
      unmarked numPhysRegs (q.insts sn).readySrcRegIdx srcs r = (q.dependGraph r).count sn) :
    srcs.foldlM (removeSource numPhysRegs sn) q = some
      { q with dependGraph := fun r => (q.dependGraph r).filter (fun j => j ≠ sn) } := by
  induction srcs generalizing q with
  | nil =>
    have hsame : (fun r => (q.dependGraph r).filter (fun j => j ≠ sn)) = q.dependGraph := by
      funext r
      refine filter_ne_self (fun hmem => ?_)
      rcases h r with hnil | hcount
      · rw [hnil] at hmem
        cases hmem
      · exact count_eq_zero.mp hcount.symm hmem
    rw [hsame]
    rfl
  | cons src srcs ih =>
    have hcons : ∀ r, unmarked numPhysRegs (q.insts sn).readySrcRegIdx (src :: srcs) r =
        unmarked numPhysRegs (q.insts sn).readySrcRegIdx srcs r +
          if (!(q.insts sn).readySrcRegIdx src.2 && decide
            (src.1 < numPhysRegs) && src.1 == r) = true
          then 1 else 0 := fun r => countP_cons
    rw [foldlM_cons]
    unfold removeSource
    by_cases hun : (!(q.insts sn).readySrcRegIdx src.2 && decide (src.1 < numPhysRegs)) = true
    · rw [if_pos hun]
      simp only [hun, Bool.true_and, beq_iff_eq] at hcons
      unfold remove
      by_cases hnil : q.dependGraph src.1 = []
      · rw [if_pos hnil]
        refine ih (fun r => ?_)
        by_cases hr : src.1 = r
        · exact .inl (hr ▸ hnil)
        · have hrest := h r
          rw [hcons, if_neg hr] at hrest
          exact hrest
      have hcount := (h src.1).resolve_left hnil
      rw [hcons, if_pos rfl] at hcount
      have hmem : sn ∈ q.dependGraph src.1 := count_pos_iff.mp (by omega)
      rw [if_neg hnil, if_pos hmem]
      refine (ih (fun r => ?_)).trans (congrArg some ?_)
      · dsimp only
        obtain rfl | hr := eq_or_ne src.1 r
        · rw [update_self, count_erase_self]
          exact .inr (by omega)
        · rw [update_of_ne (Ne.symm hr)]
          have hrest := h r
          rw [hcons, if_neg hr] at hrest
          exact hrest
      · congr 1
        funext r
        dsimp only
        by_cases hr : r = src.1
        · rw [hr, update_self]
          exact filter_erase sn _
        · rw [update_of_ne hr]
    · rw [if_neg hun]
      refine ih (fun r => ?_)
      have hrest := h r
      rw [hcons, if_neg (fun hall => hun (Bool.and_eq_true_iff.mp hall).1)] at hrest
      exact hrest

/-- `doSquash` looks for the instruction in the chains. -/
def looksUp (e : IqEntry) : Bool := (!e.issued || (e.isMemRef && !e.memOpDone)) && e.inChains

/-- The instruction can be taken out of the chains. -/
def Removable (numPhysRegs : Nat) (q : InstQueue) (sn : Nat) : Prop :=
  if looksUp (q.insts sn) then
    ∀ r, q.dependGraph r = [] ∨
      unmarked numPhysRegs (q.insts sn).readySrcRegIdx (q.insts sn).srcRegs.zipIdx r =
        (q.dependGraph r).count sn
  else ∀ r, sn ∉ q.dependGraph r

/-- The instructions are as they were, or marked as squashed. -/
def squashedEntry (e : IqEntry) : IqEntry := { e with squashedInIQ := true, issued := true }

/-- The instruction leaves the chains, and its entry is marked if it has still to issue. -/
theorem Removable.squashInst (h : Removable numPhysRegs q sn) :
    ∃ e, (e = q.insts sn ∨ e = squashedEntry (q.insts sn)) ∧
      q.squashInst numPhysRegs sn = some { q with
        insts := update q.insts sn e
        dependGraph := fun r => (q.dependGraph r).filter (fun j => j ≠ sn) } := by
  have hfilter : (∀ r, sn ∉ q.dependGraph r) →
      q.dependGraph = fun r => (q.dependGraph r).filter (fun j => j ≠ sn) :=
    fun hnot => funext fun r => (filter_ne_self (hnot r)).symm
  unfold Removable looksUp at h
  unfold InstQueue.squashInst
  by_cases hold : (!(q.insts sn).issued || ((q.insts sn).isMemRef && !(q.insts sn).memOpDone)) =
    true
  · rw [if_pos hold]
    rw [hold, Bool.true_and] at h
    by_cases hin : (q.insts sn).inChains = true
    · rw [if_pos hin] at h ⊢
      unfold removeFromChains
      rw [foldlM_removeSource numPhysRegs sn h]
      exact ⟨_, .inr rfl, rfl⟩
    · rw [if_neg hin] at h ⊢
      rw [← hfilter h]
      exact ⟨_, .inr rfl, rfl⟩
  · rw [eq_false_of_ne_true hold, Bool.false_and, if_neg (by decide)] at h
    rw [if_neg hold, ← hfilter h]
    exact ⟨_, .inl rfl, by rw [update_eq_self]⟩

theorem Removable.of_filter (h : Removable numPhysRegs q j) (hj : j ≠ sn)
    (hgraph : ∀ r, q'.dependGraph r = (q.dependGraph r).filter (fun j => j ≠ sn))
    (hinst : q'.insts j = q.insts j) : Removable numPhysRegs q' j := by
  unfold Removable at h ⊢
  rw [hinst]
  split_ifs with hlook
  · rw [if_pos hlook] at h
    intro r
    rw [hgraph, count_filter (by simpa using hj)]
    rcases h r with hnil | hcount
    · left
      rw [hnil]
      rfl
    · exact .inr hcount
  · rw [if_neg hlook] at h
    intro r hmem
    rw [hgraph] at hmem
    exact h r (mem_filter.mp hmem).1

/-- What a squash does: the younger instructions leave the list and the chains. -/
structure Squashed (q q' : InstQueue) (gone : List Nat) : Prop where
  graph : ∀ r, q'.dependGraph r = (q.dependGraph r).filter (fun j => j ∉ gone)
  others : ∀ j, j ∉ gone → q'.insts j = q.insts j
  entry : ∀ j, q'.insts j = q.insts j ∨ q'.insts j = squashedEntry (q.insts j)
  regScoreboard : q'.regScoreboard = q.regScoreboard
  readyInsts : q'.readyInsts = q.readyInsts

/-- The loop of `squash` goes from the youngest on and stops at the first that stays. -/
theorem squashLoop_spec (tid squashedSeqNum : Nat) (hsorted : l.Pairwise (fun i j => j < i))
    (hlist : ∀ j ∈ l, (q.insts j).threadNumber = tid ∧ (q.insts j).squashedInIQ = false)
    (hremovable : ∀ j ∈ l, squashedSeqNum < j → Removable numPhysRegs q j) :
    ∃ q', q.squashLoop numPhysRegs tid squashedSeqNum l =
        some (l.filter (fun j => j ≤ squashedSeqNum), q') ∧
      Squashed q q' (l.filter (fun j => squashedSeqNum < j)) ∧ q'.instList = q.instList := by
  induction l generalizing q with
  | nil => exact ⟨q, rfl, ⟨by simp, fun _ _ => rfl, fun _ => .inl rfl, rfl, rfl⟩, rfl⟩
  | cons sn l ih =>
    obtain ⟨hsn, hsorted⟩ := pairwise_cons.mp hsorted
    obtain ⟨htid, hin⟩ := hlist sn mem_cons_self
    unfold squashLoop
    by_cases hlt : squashedSeqNum < sn
    · rw [if_pos hlt, if_neg (by simp [htid, hin])]
      obtain ⟨e, he, hq1⟩ := (hremovable sn mem_cons_self hlt).squashInst
      have hother : ∀ j, j ≠ sn → update q.insts sn e j = q.insts j :=
        fun j hj => update_of_ne hj _ _
      have hne : ∀ j ∈ l, j ≠ sn := fun j hj => (hsn j hj).ne
      obtain ⟨q', hq', hsquashed, hkept⟩ := ih (q := { q with
        insts := update q.insts sn e
        dependGraph := fun r => (q.dependGraph r).filter (fun j => j ≠ sn) }) hsorted
        (fun j hj => by
          dsimp only
          rw [hother j (hne j hj)]
          exact hlist j (.tail _ hj))
        (fun j hj hlt => (hremovable j (.tail _ hj) hlt).of_filter (hne j hj) (fun _ => rfl)
          (hother j (hne j hj)))
      have hgone : sn ∉ l.filter (fun j => squashedSeqNum < j) :=
        fun hmem => hne sn (mem_filter.mp hmem).1 rfl
      rw [filter_cons_of_neg (by simpa using hlt), filter_cons_of_pos (by simpa using hlt), hq1]
      refine ⟨q', hq', ⟨fun r => ?_, fun j hj => ?_, fun j => ?_, hsquashed.regScoreboard,
        hsquashed.readyInsts⟩, hkept⟩
      · rw [hsquashed.graph r, filter_filter]
        refine filter_congr (fun j _ => ?_)
        simp only [mem_cons, not_or, Bool.decide_and, ne_eq]
        exact Bool.and_comm _ _
      · rw [mem_cons, not_or] at hj
        exact (hsquashed.others j hj.2).trans (hother j hj.1)
      · by_cases hj : j = sn
        · rw [hj, hsquashed.others sn hgone]
          simpa using he
        · rw [← hother j hj]
          exact hsquashed.entry j
    · -- the loop stops here, and the rest is older
      have hle : ∀ j ∈ sn :: l, j ≤ squashedSeqNum := by
        intro j hj
        rcases mem_cons.mp hj with rfl | hj
        · omega
        · have := hsn j hj
          omega
      rw [if_neg hlt, filter_eq_self.mpr (fun j hj => decide_eq_true (hle j hj)),
        filter_eq_nil_iff.mpr (fun j hj => by simpa using hle j hj)]
      exact ⟨q, rfl, ⟨by simp, fun _ _ => rfl, fun _ => .inl rfl, rfl, rfl⟩, rfl⟩

/-- A squash takes the younger ones of a thread out of its list and out of all chains. -/
theorem squash_spec (tid squashedSeqNum : Nat)
    (hsorted : (q.instList tid).Pairwise (fun i j => i < j))
    (hlist : ∀ j ∈ q.instList tid, (q.insts j).threadNumber = tid ∧
      (q.insts j).squashedInIQ = false)
    (hremovable : ∀ j ∈ q.instList tid, Removable numPhysRegs q j) :
    ∃ q' gone, q.squash numPhysRegs tid squashedSeqNum = some q' ∧ Squashed q q' gone ∧
      (∀ j, j ∈ gone ↔ j ∈ q.instList tid ∧ squashedSeqNum < j) ∧
      ∀ t, q'.instList t =
        (q.instList t).filter (fun j => decide (t = tid → j ≤ squashedSeqNum)) := by
  obtain ⟨q', hq', hsquashed, hkept⟩ := squashLoop_spec (q := q) tid squashedSeqNum
    (l := (q.instList tid).reverse) (pairwise_reverse.mpr hsorted)
    (fun j hj => hlist j (mem_reverse.mp hj))
    (fun j hj _ => hremovable j (mem_reverse.mp hj))
  unfold squash
  rw [hq']
  refine ⟨_, _, rfl, { hsquashed with }, by simp, fun t => ?_⟩
  obtain rfl | ht := eq_or_ne t tid
  · simp [filter_reverse]
  · simp [ht, hkept]

/-! An instruction is inserted. -/

/-- What the scoreboard and the marks tell about a source. -/
def SourceKnown (numPhysRegs : Nat) (q : InstQueue) (sn : Nat) (pending : Nat → Bool)
    (src : Nat × Nat) : Prop :=
  if (q.insts sn).readySrcRegIdx src.2 then pending src.1 = false
  else src.1 < numPhysRegs ∧ q.regScoreboard src.1 = !pending src.1

/-- Of the sources `srcs` those that `told` tells are marked, and counted as ready. -/
def markSources (told : Nat × Nat → Bool) (srcs : List (Nat × Nat)) (e : IqEntry) : IqEntry :=
  srcs.foldl (fun e src => if told src then e.markSrcRegIdxReady src.2 else e) e

structure Marked (told : Nat × Nat → Bool) (srcs : List (Nat × Nat)) (e e' : IqEntry) : Prop where
  rest : SameInst { e with readySrcRegIdx := e'.readySrcRegIdx } e'
  readyRegs : e'.readyRegs = e.readyRegs + srcs.countP told
  marks : ∀ idx, e'.readySrcRegIdx idx =
    (e.readySrcRegIdx idx || srcs.any (fun src => told src && src.2 == idx))
  canIssue : e.canIssue = decide (e.readyRegs = e.srcRegs.length) →
    e.readyRegs + srcs.countP told ≤ e.srcRegs.length →
    e'.canIssue = decide (e'.readyRegs = e'.srcRegs.length)

theorem marked_markSources (told : Nat × Nat → Bool) (srcs : List (Nat × Nat)) (e : IqEntry) :
    Marked told srcs e (markSources told srcs e) := by
  induction srcs generalizing e with
  | nil => exact ⟨rfl, rfl, by simp [markSources], fun hcan _ => hcan⟩
  | cons src srcs ih =>
    rw [markSources, foldl_cons]
    by_cases hm : told src = true
    · rw [if_pos hm]
      have h := ih (e.markSrcRegIdxReady src.2)
      refine ⟨h.rest, ?_, fun idx => ?_, fun hcan hle => ?_⟩
      · refine h.readyRegs.trans ?_
        rw [countP_cons_of_pos hm]
        change e.readyRegs + 1 + _ = _
        omega
      · refine (h.marks idx).trans ?_
        obtain rfl | hidx := eq_or_ne idx src.2
        · simp [markSrcRegIdxReady, markSrcRegReady, hm]
        · simp [markSrcRegIdxReady, markSrcRegReady, hidx, beq_false_of_ne hidx.symm]
      · rw [countP_cons_of_pos hm] at hle
        refine h.canIssue ?_ ?_
        · change (if e.readyRegs + 1 = e.srcRegs.length then true else e.canIssue) =
            decide (e.readyRegs + 1 = e.srcRegs.length)
          rw [hcan, decide_eq_false (show e.readyRegs ≠ e.srcRegs.length by omega)]
          split
          · rw [decide_eq_true ‹_›]
          · rw [decide_eq_false ‹_›]
        · change e.readyRegs + 1 + _ ≤ e.srcRegs.length
          omega
    · rw [if_neg hm]
      have h := ih e
      refine ⟨h.rest, ?_, fun idx => ?_, fun hcan hle => h.canIssue hcan ?_⟩
      · rw [countP_cons_of_neg hm]
        exact h.readyRegs
      · rw [any_cons, eq_false_of_ne_true hm]
        exact h.marks idx
      · rwa [countP_cons_of_neg hm] at hle

theorem marked_renamed (inst : IqInst) (ready : Nat → Bool) :
    Marked (fun src => ready src.2) inst.srcRegs.zipIdx
      { inst with canIssue := inst.srcRegs.isEmpty } (renamed inst ready) :=
  marked_markSources _ _ _

variable {inst : IqInst} {sn : Nat}

theorem renamed_inst : (renamed inst ready).toIqInst = inst :=
  congrArg (·.toIqInst) (marked_renamed inst ready).rest

theorem renamed_marks (hsrc : src ∈ inst.srcRegs.zipIdx) :
    (renamed inst ready).readySrcRegIdx src.2 = ready src.2 := by
  refine ((marked_renamed inst ready).marks _).trans (Bool.eq_iff_iff.mpr ?_)
  simp only [Bool.false_or, any_eq_true, Bool.and_eq_true, beq_iff_eq]
  constructor
  · rintro ⟨s, -, hready, heq⟩
    exact heq ▸ hready
  · exact fun hready => ⟨src, hsrc, hready, rfl⟩

theorem renamed_canIssue : (renamed inst ready).canIssue =
    decide ((renamed inst ready).readyRegs = (renamed inst ready).srcRegs.length) := by
  refine (marked_renamed inst ready).canIssue ?_ ?_
  · cases inst.srcRegs <;> simp
  · have hle := countP_le_length (p := fun src : Nat × Nat => ready src.2)
        (l := inst.srcRegs.zipIdx)
    rw [length_zipIdx] at hle
    simpa using hle

/-- A source that is not marked is counted if its register has been written since. -/
def countsNow (pending : Nat → Bool) (e : IqEntry) (src : Nat × Nat) : Bool :=
  !e.readySrcRegIdx src.2 && !pending src.1

/-- The loop puts the instruction into the chains of the sources that it has to wait for. -/
theorem foldl_addSource {srcs : List (Nat × Nat)} (hnodup : (srcs.map Prod.snd).Nodup)
    (hknown : ∀ src ∈ srcs, SourceKnown numPhysRegs q sn pending src) :
    srcs.foldl (addSource numPhysRegs sn) q = { q with
      insts := update q.insts sn
        (markSources (countsNow pending (q.insts sn)) srcs (q.insts sn))
      dependGraph := fun r =>
        replicate (srcs.countP (fun src => pending src.1 && src.1 == r)) sn ++
          q.dependGraph r } := by
  induction srcs generalizing q with
  | nil => simp [markSources]
  | cons src srcs ih =>
    obtain ⟨hnew, hnodup⟩ := nodup_cons.mp hnodup
    have hsrc := hknown src mem_cons_self
    have hrest := fun src' hsrc' => hknown src' (.tail _ hsrc')
    unfold SourceKnown at hsrc
    rw [foldl_cons, addSource, markSources, foldl_cons, countsNow]
    cases hmark : (q.insts sn).readySrcRegIdx src.2 with
    | true =>
      -- rename has marked the source
      rw [hmark, if_pos rfl] at hsrc
      rw [if_pos rfl, ih hnodup hrest]
      simp [hsrc, markSources]
    | false =>
      rw [hmark, if_neg (by decide)] at hsrc
      obtain ⟨hlt, hboard⟩ := hsrc
      rw [if_neg (by decide), if_neg (not_le.mpr hlt)]
      cases hp : pending src.1 with
      | true =>
        rw [if_neg (by rw [hboard, hp]; decide)]
        refine (ih (q := { q with
          dependGraph := update q.dependGraph src.1
            (sn :: q.dependGraph src.1) }) hnodup hrest).trans ?_
        congr 1
        funext r
        obtain rfl | hr := eq_or_ne r src.1
        · simp [hp, replicate_succ']
        · simp [hr, hr.symm]
      | false =>
        -- the register has been written since
        have hsame : ∀ src' ∈ srcs, ((q.insts sn).markSrcRegIdxReady src.2).readySrcRegIdx src'.2 =
            (q.insts sn).readySrcRegIdx src'.2 := by
          refine fun src' hsrc' => update_of_ne (fun heq => hnew ?_) _ _
          exact heq ▸ mem_map_of_mem hsrc'
        rw [if_pos (by rw [hboard, hp]; rfl), ih hnodup (fun src' hsrc' => ?_)]
        · have hmarks : ∀ src' ∈ srcs, countsNow pending
              ((q.insts sn).markSrcRegIdxReady src.2) src' =
              countsNow pending (q.insts sn) src' :=
            fun src' hsrc' => by rw [countsNow, hsame src' hsrc', countsNow]
          simp only [modify, update_self, update_idem, markSources, countP_cons, hp]
          congr 1
          refine congrArg (update q.insts sn) (foldl_ext _ _ _ (fun e src' hsrc' => ?_))
          rw [hmarks src' hsrc']
        · have hk := hrest src' hsrc'
          unfold SourceKnown at hk ⊢
          rwa [modify_self, hsame src' hsrc']

theorem count_zipIdx (l : List Nat) (p : Nat → Bool) :
    l.zipIdx.countP (fun src => p src.1) = l.countP p := by
  have hmap : l.zipIdx.map Prod.fst = l := by simp
  conv_rhs => rw [← hmap, countP_map]
  rfl

/-- The entry of an instruction whose sources have been looked at: those that are marked are not
pending, and those that are not pending are counted. -/
structure NewEntry (pending : Nat → Bool) (inst : IqInst) (e : IqEntry) : Prop where
  kind : e.toIqInst = inst
  issued : e.issued = false
  squashedInIQ : e.squashedInIQ = false
  ready : e.readyRegs = inst.srcRegs.countP (fun r => !pending r)
  canIssue : e.canIssue = decide (e.readyRegs = inst.srcRegs.length)
  marks : ∀ src ∈ inst.srcRegs.zipIdx, e.readySrcRegIdx src.2 = true → pending src.1 = false

/-- A new entry counts those of its sources that are not pending. -/
theorem newEntry_markSources (pending : Nat → Bool) (inst : IqInst) (ready : Nat → Bool)
    (hknown : ∀ src ∈ inst.srcRegs.zipIdx, ready src.2 = true → pending src.1 = false) :
    NewEntry pending inst (markSources (countsNow pending (renamed inst ready)) inst.srcRegs.zipIdx
      (renamed inst ready)) := by
  have hold := marked_renamed inst ready
  have hnew := marked_markSources (countsNow pending (renamed inst ready)) inst.srcRegs.zipIdx
    (renamed inst ready)
  -- a source is marked by rename, or counted now, or pending
  have htotal : (renamed inst ready).readyRegs + inst.srcRegs.zipIdx.countP
      (countsNow pending (renamed inst ready)) = inst.srcRegs.countP (fun r => !pending r) := by
    rw [hold.readyRegs, zero_add, ← count_zipIdx, countP_eq_countP_filter_add _
      (fun src : Nat × Nat => !pending src.1) (fun src => ready src.2), countP_filter,
        countP_filter]
    congr 1
    · refine countP_congr (fun src hsrc => ?_)
      cases hr : ready src.2 <;> simp
      exact hknown src hsrc hr
    · refine countP_congr (fun src hsrc => ?_)
      rw [countsNow, renamed_marks hsrc, Bool.and_comm]
  have hinst := (congrArg (·.toIqInst) hnew.rest).trans renamed_inst
  have hsrcs : (renamed inst ready).srcRegs = inst.srcRegs := congrArg IqInst.srcRegs renamed_inst
  have hready := hnew.readyRegs.trans htotal
  refine ⟨hinst, (congrArg IqEntry.issued hnew.rest).trans (congrArg IqEntry.issued hold.rest),
    (congrArg IqEntry.squashedInIQ hnew.rest).trans (congrArg IqEntry.squashedInIQ hold.rest),
    hready, ?_, fun src hsrc hmark => ?_⟩
  · refine (hnew.canIssue renamed_canIssue ?_).trans (by rw [congrArg IqInst.srcRegs hinst])
    rw [htotal, hsrcs]
    exact countP_le_length
  · rw [hnew.marks, renamed_marks hsrc, Bool.or_eq_true, any_eq_true] at hmark
    rcases hmark with hmark | ⟨s, hs, hmark⟩
    · exact hknown src hsrc hmark
    · simp only [countsNow, Bool.and_eq_true, Bool.not_eq_true', beq_iff_eq] at hmark
      rw [← inj_on_of_nodup_map (nodup_zipIdx_map_snd _) hs hsrc hmark.2]
      exact hmark.1.2

/-- The queue with a new entry, and the instruction in the chains of what it waits for. -/
def enter (pending : Nat → Bool) (inst : IqInst) (sn : Nat) (e : IqEntry) (q : InstQueue) :
    InstQueue :=
  { q with
    insts := update q.insts sn e
    instList := update q.instList inst.threadNumber (q.instList inst.threadNumber ++ [sn])
    dependGraph := fun r =>
      replicate (if pending r then inst.srcRegs.count r else 0) sn ++ q.dependGraph r }

/-- A new instruction goes into the chains of its pending sources. -/
theorem addToDependents_enqueue (q : InstQueue) (sn : Nat)
    (hknown : ∀ src ∈ inst.srcRegs.zipIdx,
      SourceKnown numPhysRegs (q.enqueue sn (renamed inst ready)) sn pending src) :
    ∃ e, NewEntry pending inst e ∧
      addToDependents numPhysRegs sn (q.enqueue sn (renamed inst ready)) =
        q.enter pending inst sn e := by
  have hself : (q.enqueue sn (renamed inst ready)).insts sn = renamed inst ready :=
    update_self _ _ _
  have hnew := newEntry_markSources pending inst ready
    (fun src hsrc hready => by
      have hk := hknown src hsrc
      unfold SourceKnown at hk
      rwa [hself, renamed_marks hsrc, hready, if_pos rfl] at hk)
  refine ⟨_, hnew, ?_⟩
  unfold addToDependents
  rw [hself, congrArg IqInst.srcRegs renamed_inst,
    foldl_addSource (nodup_zipIdx_map_snd _) hknown, hself]
  have hcount : ∀ r, inst.srcRegs.zipIdx.countP (fun src => pending src.1 && src.1 == r) =
      if pending r then inst.srcRegs.count r else 0 := by
    intro r
    rw [count_zipIdx inst.srcRegs (fun s => pending s && s == r)]
    split_ifs with hp
    · refine countP_congr (fun s _ => ?_)
      by_cases hs : s = r <;> simp [hs, hp]
    · refine countP_eq_zero.mpr (fun s _ => ?_)
      by_cases hs : s = r <;> simp [hs, hp]
  simp only [hcount, enter, enqueue, update_idem, congrArg IqInst.threadNumber renamed_inst]

/-- The registers of the instruction wait for it from now on. -/
theorem foldlM_addProducer (numPhysRegs sn : Nat) (dests : List Nat)
    (hempty : ∀ d ∈ dests, d < numPhysRegs → q.dependGraph d = []) :
    ∃ producer, dests.foldlM (addProducer numPhysRegs sn) q = some { q with
      producer
      regScoreboard := fun r => q.regScoreboard r && !decide (r < numPhysRegs ∧ r ∈ dests) } := by
  induction dests generalizing q with
  | nil => exact ⟨q.producer, by simp⟩
  | cons d dests ih =>
    have hrest : ∀ d' ∈ dests, d' < numPhysRegs → q.dependGraph d' = [] :=
      fun d' hd' => hempty d' (.tail _ hd')
    rw [foldlM_cons]
    unfold addProducer
    by_cases hle : numPhysRegs ≤ d
    · rw [if_pos hle]
      obtain ⟨producer, hq'⟩ := ih hrest
      simp only [decide_mem_cons hle]
      exact ⟨producer, hq'⟩
    have hlt := not_le.mp hle
    rw [if_neg hle, if_neg (not_not.mpr (hempty d mem_cons_self hlt))]
    obtain ⟨producer, hq'⟩ := ih (q := { q with
      producer := update q.producer d (some sn)
      regScoreboard := update q.regScoreboard d false }) hrest
    refine ⟨producer, hq'.trans (congrArg (fun regScoreboard => some { q with
      producer
      regScoreboard }) (funext fun r => ?_))⟩
    obtain rfl | hr := eq_or_ne r d
    · simp [hlt]
    · simp [hr]

/-- What an insertion leaves as it is, and what it adds. -/
structure Inserted (numPhysRegs : Nat) (q q' : InstQueue) (sn : Nat) (inst : IqInst) : Prop where
  others : ∀ j, j ≠ sn → q'.insts j = q.insts j
  entry : (q'.insts sn).toIqInst = inst
  issued : (q'.insts sn).issued = false
  squashedInIQ : (q'.insts sn).squashedInIQ = false
  instList : q'.instList = Function.update q.instList inst.threadNumber
    (q.instList inst.threadNumber ++ [sn])
  regScoreboard : ∀ r, q'.regScoreboard r =
    (q.regScoreboard r && !decide (r < numPhysRegs ∧ r ∈ inst.destRegs))
  readyInsts : ∀ j ∈ q'.readyInsts, j ∈ q.readyInsts ∨ j = sn

theorem inserted_of_insts {e : IqEntry} (hinsts : q'.insts = update q.insts sn e)
    (he : e.toIqInst = inst) (hissued : e.issued = false) (hsquashed : e.squashedInIQ = false)
    (hlist : q'.instList = update q.instList inst.threadNumber
      (q.instList inst.threadNumber ++ [sn]))
    (hboard : ∀ r, q'.regScoreboard r =
      (q.regScoreboard r && !decide (r < numPhysRegs ∧ r ∈ inst.destRegs)))
    (hready : ∀ j ∈ q'.readyInsts, j ∈ q.readyInsts ∨ j = sn) :
    Inserted numPhysRegs q q' sn inst := by
  have hself : q'.insts sn = e := by rw [hinsts, update_self]
  refine ⟨fun j hj => ?_, ?_, ?_, ?_, hlist, hboard, hready⟩
  · rw [hinsts, update_of_ne hj]
  all_goals rwa [hself]

def produced (numPhysRegs : Nat) (pending : Nat → Bool) (inst : IqInst) (r : Nat) : Bool :=
  pending r || decide (r < numPhysRegs ∧ r ∈ inst.destRegs)

theorem produced_eq (hfree : d ∈ inst.destRegs → d < numPhysRegs → False) :
    produced numPhysRegs pending inst d = pending d := by
  unfold produced
  rw [decide_eq_false (fun hd => hfree hd.2 hd.1), Bool.or_false]

/-- New producers do not matter to those that wait for other registers. -/
theorem Counts.produced (h : q.Counts waits pending)
    (hfree : ∀ j, waits j → ∀ d ∈ inst.destRegs, d < numPhysRegs → d ∉ (q.insts j).srcRegs) :
    q.Counts waits (InstQueue.produced numPhysRegs pending inst) := by
  have hsame : ∀ j, waits j → ∀ r ∈ (q.insts j).srcRegs,
      InstQueue.produced numPhysRegs pending inst r = pending r :=
    fun j hj r hr => produced_eq (fun hd hlt => hfree j hj r hd hlt hr)
  refine ⟨h.members, fun j hj => ⟨(h.counted j hj).toReported, fun r => ?_, ?_⟩⟩
  · rw [h.chain j hj r]
    by_cases hr : r ∈ (q.insts j).srcRegs
    · rw [hsame j hj r hr]
    · simp [count_eq_zero.mpr hr]
  · rw [(h.counted j hj).ready]
    refine countP_congr (fun r hr => ?_)
    rw [hsame j hj r hr]

/-- What waits to be the oldest is not tracked, but its registers are pending. -/
theorem Counts.insertNonSpec (h : q.Counts waits pending) (ready : Nat → Bool) (hsn : ¬ waits sn)
    (hfree : ∀ j, waits j → ∀ d ∈ inst.destRegs, d < numPhysRegs → d ∉ (q.insts j).srcRegs) :
    ∃ q', q.insertNonSpec numPhysRegs sn (renamed inst ready) = some q' ∧
      Inserted numPhysRegs q q' sn inst ∧
      q'.Counts waits (InstQueue.produced numPhysRegs pending inst) := by
  have hrest := (marked_renamed inst ready).rest
  obtain ⟨producer, hq'⟩ := foldlM_addProducer
    (q := q.enqueue sn (renamed inst ready)) numPhysRegs sn inst.destRegs
    (fun d hd hlt => eq_nil_iff_forall_not_mem.mpr (fun j hj =>
      hfree j (h.members d j hj) d hd hlt (h.mem_srcRegs hj)))
  refine ⟨_, Eq.trans ?_ hq', inserted_of_insts rfl renamed_inst (congrArg IqEntry.issued hrest)
    (congrArg IqEntry.squashedInIQ hrest) ?_ (fun r => rfl) (fun j hj => .inl hj),
    (h.produced hfree).remove (fun _ hj => hj) h.members (fun _ _ _ => rfl)
      (fun j hj => update_of_ne (fun heq => hsn ?_) _ _) (fun _ _ => rfl)⟩
  · rw [InstQueue.insertNonSpec, addToProducers,
      show (q.enqueue sn (renamed inst ready)).insts sn = renamed inst ready from update_self _ _ _,
      congrArg IqInst.destRegs renamed_inst]
  · simp only [enqueue, congrArg IqInst.threadNumber renamed_inst]
  · exact heq ▸ hj

/-- The last step of an insertion tells whether all sources are ready. A memory instruction that has
to wait for a store can not issue all the same. -/
theorem told_insert {e : IqEntry} (he : q.insts sn = e) (isMemRef storeFound : Bool) :
    ∃ canIssue, (canIssue = true → e.canIssue = true) ∧
      (if isMemRef then q.memDepInsert sn storeFound else q.addIfReady sn) = { q with
        insts := update q.insts sn { e with canIssue }
        readyInsts := if e.canIssue then sn :: q.readyInsts else q.readyInsts } := by
  have hsame : update q.insts sn { e with canIssue := e.canIssue } = q.insts := by
    rw [← he]
    exact update_eq_self _ _
  unfold memDepInsert
  rw [addIfReady_eq, he]
  cases isMemRef with
  | false => exact ⟨e.canIssue, id, by rw [hsame]; rfl⟩
  | true =>
    cases storeFound with
    | false => exact ⟨e.canIssue, id, by rw [hsame]; rfl⟩
    | true => exact ⟨false, nofun, by simp [modify, he]⟩

/-- What is inserted is tracked from now on, and its registers are pending. -/
theorem Counts.insert (h : q.Counts waits pending)
    (storeFound : Bool) (hsn : ¬ waits sn) (hnew : sn ∉ q.readyInsts)
    (hknown : ∀ src ∈ inst.srcRegs.zipIdx,
      SourceKnown numPhysRegs (q.enqueue sn (renamed inst ready)) sn pending src)
    (hfree : ∀ j, waits j → ∀ d ∈ inst.destRegs, d < numPhysRegs → d ∉ (q.insts j).srcRegs)
    (hself : ∀ d ∈ inst.destRegs, d < numPhysRegs → d ∉ inst.srcRegs) :
    ∃ q', q.insert numPhysRegs sn (renamed inst ready) storeFound = some q' ∧
      Inserted numPhysRegs q q' sn inst ∧
      (∀ src ∈ inst.srcRegs.zipIdx, (q'.insts sn).readySrcRegIdx src.2 = true →
        pending src.1 = false) ∧
      q'.Counts (fun j => waits j ∨ j = sn) (InstQueue.produced numPhysRegs pending inst) := by
  obtain ⟨e, he, hq1⟩ := addToDependents_enqueue q sn hknown
  have hself' : (q.enter pending inst sn e).insts sn = e := update_self _ _ _
  obtain ⟨producer, hq2⟩ := foldlM_addProducer (q := q.enter pending inst sn e) numPhysRegs sn
    inst.destRegs (fun d hd hlt => by
      refine append_eq_nil_iff.mpr ⟨?_, eq_nil_iff_forall_not_mem.mpr (fun j hj => ?_)⟩
      · rw [count_eq_zero.mpr (hself d hd hlt), ite_self]
        rfl
      · exact hfree j (h.members d j hj) d hd hlt (h.mem_srcRegs hj))
  obtain ⟨canIssue, himp, hq'⟩ := told_insert (e := e) (q := { q.enter pending inst sn e with
    producer
    regScoreboard := fun r =>
      q.regScoreboard r && !decide (r < numPhysRegs ∧ r ∈ inst.destRegs) })
    (update_self _ _ _) inst.isMemRef storeFound
  have hne : ∀ j, waits j → j ≠ sn := fun j hj heq => hsn (heq ▸ hj)
  refine ⟨_, Eq.trans ?_ (congrArg some hq'),
    inserted_of_insts (e := { e with canIssue }) (update_idem _ _ _) he.kind he.issued
    he.squashedInIQ rfl (fun r => rfl) (fun j hj => ?_), ?_,
    Counts.produced (⟨fun r j hj => ?_, fun j hj => ?_⟩ : Counts _ _ pending)
      (fun j hj d hd hlt => ?_)⟩
  · rw [InstQueue.insert, addToProducers, hq1, hself', congrArg IqInst.destRegs he.kind, hq2,
      congrArg IqInst.isMemRef renamed_inst]
    rfl
  · split at hj
    · exact (mem_cons.mp hj).symm
    · exact .inl hj
  · intro src hsrc hmark
    refine he.marks src hsrc ?_
    simpa using hmark
  · rcases mem_append.mp hj with hj | hj
    · exact .inr (eq_of_mem_replicate hj)
    · exact .inl (h.members r j hj)
  · rcases hj with hj | rfl
    · have hsame : ∀ b : Bool, (if b then sn :: q.readyInsts else q.readyInsts).count j =
          q.readyInsts.count j := fun b => by cases b <;> simp [(hne j hj).symm]
      simpa [enter, count_replicate, hne j hj, (hne j hj).symm, hsame] using h.counted j hj
    · have hsrcs : e.srcRegs = inst.srcRegs := congrArg IqInst.srcRegs he.kind
      have hcount : ∀ r, (q.dependGraph r).count j = 0 :=
        fun r => count_eq_zero.mpr (fun hmem => hsn (h.members r j hmem))
      have hcan := he.canIssue
      refine ⟨⟨fun hless => ?_, ?_⟩, fun r => ?_, ?_⟩
      · simp only [update_self, hsrcs] at hless ⊢
        rw [decide_eq_false hless.ne] at hcan
        exact eq_false_of_ne_true (fun hyes => by rw [himp hyes] at hcan; cases hcan)
      · simp only [update_self, hsrcs, hcan, decide_eq_true_eq]
        split <;> simp [enter, count_eq_zero.mpr hnew]
      · simp [enter, hsrcs, hcount]
      · simpa [hsrcs] using he.ready
  · rcases hj with hj | rfl
    · simpa [enter, hne j hj] using hfree j hj d hd hlt
    · simpa [congrArg IqInst.srcRegs he.kind] using hself d hd hlt

end Gem5.O3.InstQueue
