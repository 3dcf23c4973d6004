import Gem5.O3.RenameConservation

namespace Gem5.O3

open Lib List Function

namespace Rename

abbrev RegMap := RegClass → Nat → Nat

/-- The map that a squash leaves: the entries younger than it are undone from the front. -/
def rewind (squashedSeqNum : Nat) : List RenameHistory → RegMap → RegMap
  | [], m => m
  | e :: rest, m => if squashedSeqNum < e.instSeqNum then rewind squashedSeqNum rest
    (e.undo m) else m

theorem rewind_of_le (h : ∀ e ∈ l, e.instSeqNum ≤ n) : rewind n l m = m := by
  cases l with
  | nil => rfl
  | cons e rest => exact if_neg (Nat.not_lt.mpr (h e mem_cons_self))

/-- Entries that are not younger than the squash make no difference at the old end. -/
theorem rewind_append (h : ∀ e ∈ old, e.instSeqNum ≤ n) : rewind n (l ++ old) m = rewind n l m := by
  induction l generalizing m with
  | nil => exact rewind_of_le h
  | cons e rest ih =>
    simp only [cons_append, rewind]
    split
    · exact ih
    · rfl

theorem rewind_rewind (hnk : n ≤ k) :
    rewind n (l.dropWhile (fun e => k < e.instSeqNum)) (rewind k l m) = rewind n l m := by
  induction l generalizing m with
  | nil => rfl
  | cons e rest ih =>
    simp only [rewind]
    by_cases hk : k < e.instSeqNum
    · rw [dropWhile_cons_of_pos (by simpa using hk), if_pos hk, if_pos (by omega)]
      exact ih
    · rw [dropWhile_cons_of_neg (by simpa using hk), if_neg hk, rewind]

variable {cfg : RegConfig} {s t : Rename} {tid : Nat} {hist : List RenameHistory} {m : RegMap}

/-! What the operations do to maps and histories, if they succeed. -/

structure Replaced (s t : Rename) (tid : Nat) (m : RegMap) (hist : List RenameHistory) : Prop where
  map : t.renameMap = Function.update s.renameMap tid m
  hist : t.historyBuffer = Function.update s.historyBuffer tid hist

theorem Replaced.refl (s : Rename) (tid : Nat) :
    Replaced s s tid (s.renameMap tid) (s.historyBuffer tid) :=
  ⟨(update_eq_self _ _).symm, (update_eq_self _ _).symm⟩

theorem Replaced.trans {u : Rename} {m m' : RegMap} {hist hist' : List RenameHistory}
    (h : Replaced s t tid m hist) (h' : Replaced t u tid m' hist') : Replaced s u tid m' hist' :=
  ⟨by rw [h'.map, h.map, update_idem], by rw [h'.hist, h.hist, update_idem]⟩

section

variable (h : Replaced s t tid m hist)
include h

theorem Replaced.map_self : t.renameMap tid = m := by
  rw [h.map, update_self]

theorem Replaced.hist_self : t.historyBuffer tid = hist := by
  rw [h.hist, update_self]

theorem Replaced.setHistory
    (hist' : List RenameHistory) : Replaced s (t.setHistory tid hist') tid m hist' :=
  ⟨h.map, by rw [Rename.setHistory, h.hist, update_idem]⟩

end

theorem addReg_frame (s : Rename) (reg tid : Nat) :
    Meets (s.addReg cfg reg) (fun _ => True) (fun t =>
      Replaced s t tid (s.renameMap tid) (s.historyBuffer tid)) := by
  have hfree : ∀ c regs, Replaced s (s.setFree c regs) tid (s.renameMap tid)
      (s.historyBuffer tid) :=
    fun c regs => ⟨(update_eq_self _ _).symm, (update_eq_self _ _).symm⟩
  unfold addReg
  repeat' split
  · exact .ok (hfree _ _)
  · exact .ok (hfree _ _)
  · exact .ok (hfree _ _)
  · trivial

theorem undoEntry_frame (s : Rename) (tid : Nat) (e : RenameHistory) :
    Meets (s.undoEntry cfg tid e) (fun _ => True) (fun t =>
      Replaced s t tid (e.undo (s.renameMap tid)) (s.historyBuffer tid)) := by
  obtain ⟨seqNum, dest, new, prev⟩ := e
  unfold undoEntry RenameHistory.undo
  by_cases hne : new ≠ prev
  · rw [if_pos hne]
    cases dest with
    | renamed c idx =>
      dsimp only
      rw [if_pos hne]
      split
      · refine (addReg_frame _ _ tid).mono (fun t ht => ⟨?_, ht.hist⟩)
        rw [ht.map]
        simp only [setEntry, update_self, update_idem]
      · trivial
    | misc idx =>
      dsimp only
      split
      · exact addReg_frame _ _ tid
      · trivial
  · rw [if_neg hne]
    cases dest with
    | renamed c idx =>
      dsimp only
      rw [if_neg hne]
      exact .ok (.refl s tid)
    | misc idx => exact .ok (.refl s tid)

theorem doSquash_frame (cfg : RegConfig) (s : Rename) (n tid : Nat) :
    Meets (s.doSquash cfg n tid) (fun _ => True) (fun t =>
      Replaced s t tid (rewind n (s.historyBuffer tid) (s.renameMap tid))
        ((s.historyBuffer tid).dropWhile (fun e => n < e.instSeqNum))) := by
  have hloop : ∀ entries s, s.historyBuffer tid = entries →
      Meets (doSquashLoop cfg n tid entries s) (fun _ => True) (fun t =>
        Replaced s t tid (rewind n entries (s.renameMap tid))
          (entries.dropWhile (fun e => n < e.instSeqNum))) := by
    intro entries
    induction entries with
    | nil =>
      intro s hhist
      have := Replaced.refl s tid
      rw [hhist] at this
      exact .ok this
    | cons e rest ih =>
      intro s hhist
      unfold doSquashLoop rewind
      by_cases hlt : n < e.instSeqNum
      · rw [if_pos hlt, if_pos hlt, dropWhile_cons_of_pos (by simpa using hlt)]
        refine (undoEntry_frame s tid e).bind (fun t ht => ?_)
        have ht := ht.setHistory rest
        refine (ih _ ht.hist_self).mono (fun u hu => ?_)
        rw [ht.map_self] at hu
        exact ht.trans hu
      · rw [if_neg hlt, if_neg hlt, dropWhile_cons_of_neg (by simpa using hlt), ← hhist]
        exact .ok (.refl s tid)
  exact hloop _ s rfl

/-- A commit leaves the map alone and drops entries at the old end. -/
theorem removeFromHistory_frame (s : Rename) (n tid : Nat) :
    Meets (s.removeFromHistory cfg n tid) (fun _ => True) (fun t =>
      ∃ kept old, s.historyBuffer tid = kept ++ old ∧ (∀ e ∈ old, e.instSeqNum ≤ n) ∧
        Replaced s t tid (s.renameMap tid) kept) := by
  have hloop : ∀ entries s, s.historyBuffer tid = entries.reverse →
      Meets (removeLoop cfg n tid entries s) (fun _ => True) (fun t =>
        ∃ kept old, entries.reverse = kept ++ old ∧ (∀ e ∈ old, e.instSeqNum ≤ n) ∧
          Replaced s t tid (s.renameMap tid) kept) := by
    intro entries
    induction entries with
    | nil =>
      intro s hhist
      have := Replaced.refl s tid
      rw [hhist] at this
      exact .ok ⟨[], [], rfl, forall_mem_nil _, this⟩
    | cons e rest ih =>
      intro s hhist
      unfold removeLoop
      split_ifs with hle
      · have hfree : Meets (s.freePrev cfg e) (fun _ => True) (fun t =>
            Replaced s t tid (s.renameMap tid) (s.historyBuffer tid)) := by
          unfold freePrev
          split
          · exact addReg_frame s _ tid
          · exact .ok (.refl s tid)
        refine hfree.bind (fun t ht => ?_)
        have ht := ht.setHistory rest.reverse
        refine (ih _ ht.hist_self).mono ?_
        rintro u ⟨kept, old, hrest, hold, hu⟩
        rw [ht.map_self] at hu
        refine ⟨kept, old ++ [e], ?_, fun x hx => ?_, ht.trans hu⟩
        · rw [reverse_cons, hrest, append_assoc]
        · rcases mem_append.mp hx with hx | hx
          · exact hold x hx
          · rw [mem_singleton.mp hx]
            exact hle
      · have := Replaced.refl s tid
        rw [hhist] at this
        exact .ok ⟨_, [], (append_nil _).symm, forall_mem_nil _, this⟩
  refine (hloop _ s (reverse_reverse _).symm).mono ?_
  rintro t ⟨kept, old, hentries, hold, ht⟩
  rw [reverse_reverse] at hentries
  exact ⟨kept, old, hentries, hold, ht⟩

theorem setMap_eq_self (m : RegMap) (c : RegClass) (idx : Nat) : setMap m c idx (m c idx) = m := by
  unfold setMap
  rw [update_eq_self, update_eq_self]

/-- Renaming a destination is undone by the entry that records it. -/
theorem renameDestReg_frame (s : Rename) (tid seqNum : Nat) (dest : ArchReg) :
    Meets (s.renameDestReg cfg tid seqNum dest) (fun _ => True) (fun t =>
      ∃ e m, e.instSeqNum = seqNum ∧ e.undo m = s.renameMap tid ∧
        Replaced s t tid m (e :: s.historyBuffer tid)) := by
  cases dest with
  | misc idx =>
    exact .ok ⟨_, s.renameMap tid, rfl, rfl, (Replaced.refl s tid).setHistory _⟩
  | renamed c idx =>
    have hreg : Meets (s.renameReg cfg tid c idx) (fun _ => True) (fun p =>
        (p.1 = p.2.1 ∧ p.2.2 = s) ∨ ∃ regs, p.2.1 = s.renameMap tid c idx ∧
          p.2.2 = (s.setFree c regs).setEntry tid c idx p.1) := by
      unfold renameReg getReg
      dsimp only
      split
      · cases hfree : s.freeList c with
        | nil => trivial
        | cons reg rest =>
          simp only [ok_bind]
          split
          · exact .pure (.inr ⟨rest, rfl, rfl⟩)
          · trivial
      · split
        · trivial
        · rename_i hzero
          rw [not_not] at hzero
          split
          · exact .pure (.inl ⟨hzero.symm, rfl⟩)
          · trivial
    refine hreg.bind ?_
    rintro ⟨new, prev, u⟩ (⟨heq, hu⟩ | ⟨regs, hprev, hu⟩)
    · dsimp only at heq hu
      subst heq hu
      refine .pure ⟨_, u.renameMap tid, rfl, undo_of_eq rfl _, (Replaced.refl u tid).setHistory _⟩
    dsimp only at hprev hu
    subst hprev hu
    refine .pure ⟨_, setMap (s.renameMap tid) c idx new, rfl, ?_, ⟨rfl, rfl⟩⟩
    by_cases heq : new = s.renameMap tid c idx
    · rw [undo_of_eq heq, heq, setMap_eq_self]
    · simp only [RenameHistory.undo]
      rw [if_pos heq, setMap_setMap]

/-- Renaming an instruction is undone by the entries that record it. -/
theorem renameDestRegs_frame (s : Rename) (tid : Nat) (inst : RenamedInst) :
    Meets (s.renameDestRegs cfg tid inst) (fun _ => True) (fun t =>
      ∃ es m, (∀ e ∈ es, e.instSeqNum = inst.seqNum) ∧
        (∀ n hist, n < inst.seqNum → rewind n (es ++ hist) m = rewind n hist (s.renameMap tid)) ∧
        Replaced s t tid m (es ++ s.historyBuffer tid)) := by
  refine Meets.foldlM
    ⟨[], s.renameMap tid, forall_mem_nil _, fun _ _ _ => rfl, .refl s tid⟩ ?_
  rintro dest - t ⟨es, m, hes, hundo, ht⟩
  refine (renameDestReg_frame t tid inst.seqNum dest).mono ?_
  rintro u ⟨e, m', he, hm', hu⟩
  rw [ht.map_self] at hm'
  rw [ht.hist_self] at hu
  refine ⟨e :: es, m', ?_, fun n hist hn => ?_, ht.trans hu⟩
  · intro x hx
    rcases mem_cons.mp hx with rfl | hx
    · exact he
    · exact hes x hx
  · rw [cons_append, rewind, he, if_pos hn, hm']
    exact hundo n hist hn

/-! Runs with a record of the maps. -/

/-- The stage, the maps at the start, for each thread the instructions renamed and not
squashed, youngest first, with the map right after each, and the last number committed. -/
structure Checkpoints where
  stage : Rename
  start : Nat → RegMap
  renamed : Nat → List (Nat × RegMap)
  committed : Nat → Nat

/-- The map after the youngest instruction that is not younger than a number. -/
def mapAfter (start : RegMap) (renamed : List (Nat × RegMap)) (n : Nat) : RegMap :=
  match renamed.find? (fun p => p.1 ≤ n) with
  | some p => p.2
  | none => start

def Checkpoints.record (k : Checkpoints) (t : Rename) : Move → Checkpoints
  | .renameInst tid inst =>
    { k with
      stage := t
      renamed := Function.update k.renamed tid
        ((inst.seqNum, t.renameMap tid) :: k.renamed tid) }
  | .doSquash n tid =>
    { k with
      stage := t
      renamed := Function.update k.renamed tid ((k.renamed tid).filter (fun p => p.1 ≤ n)) }
  | .removeFromHistory n tid =>
    { k with stage := t, committed := Function.update k.committed tid n }

/-- Instructions of a thread are renamed in the order of their numbers, numbers committed do
not decrease, and no squash is older than the last commit. -/
def InOrder (k : Checkpoints) : Move → Prop
  | .renameInst tid inst => ∀ p ∈ k.renamed tid, p.1 < inst.seqNum
  | .doSquash n tid => k.committed tid ≤ n
  | .removeFromHistory n tid => k.committed tid ≤ n

instance (k : Checkpoints) : (m : Move) → Decidable (InOrder k m)
  | .renameInst tid inst => inferInstanceAs (Decidable (∀ p ∈ k.renamed tid, p.1 < inst.seqNum))
  | .doSquash n tid | .removeFromHistory n tid => inferInstanceAs (Decidable (k.committed tid ≤ n))

def checkpointMachine (cfg : RegConfig) : Machine Checkpoints Move where
  init k := initial cfg = .ok k.stage ∧ k.start = k.stage.renameMap ∧
    ∀ tid, k.renamed tid = [] ∧ k.committed tid = 0
  step k m k' := Enabled cfg k.stage m ∧ InOrder k m ∧
    ∃ t, run cfg k.stage m = .ok t ∧ k' = k.record t m

/-- The history of a thread leads back to every map since the last commit. -/
structure Tracked (hist : List RenameHistory) (m start : RegMap) (renamed : List (Nat × RegMap))
    (committed : Nat) : Prop where
  sorted : hist.Pairwise (fun e e' => e'.instSeqNum ≤ e.instSeqNum)
  known : ∀ e ∈ hist, ∃ p ∈ renamed, p.1 = e.instSeqNum
  rewinds : ∀ n, committed ≤ n → rewind n hist m = mapAfter start renamed n

theorem mem_dropWhile_le {n : Nat} (h : hist.Pairwise (fun e e' => e'.instSeqNum ≤ e.instSeqNum)) :
    ∀ e ∈ hist.dropWhile (fun e => n < e.instSeqNum), e.instSeqNum ≤ n := by
  induction hist with
  | nil => exact forall_mem_nil _
  | cons x rest ih =>
    obtain ⟨hx, hrest⟩ := pairwise_cons.mp h
    by_cases hlt : n < x.instSeqNum
    · rw [dropWhile_cons_of_pos (by simpa using hlt)]
      exact ih hrest
    rw [dropWhile_cons_of_neg (by simpa using hlt)]
    intro e he
    rcases mem_cons.mp he with rfl | he
    · omega
    · have := hx e he
      omega

variable {hist : List RenameHistory} {m start : RegMap} {renamed : List (Nat × RegMap)}
  {committed : Nat}

theorem Tracked.renameInst (h : Tracked hist m start renamed committed)
    (hnew : ∀ p ∈ renamed, p.1 < seqNum) (hes : ∀ e ∈ es, e.instSeqNum = seqNum)
    (hundo : ∀ n hist, n < seqNum → rewind n (es ++ hist) m' = rewind n hist m) :
    Tracked (es ++ hist) m' start ((seqNum, m') :: renamed) committed := by
  have hold : ∀ e ∈ hist, e.instSeqNum < seqNum := by
    intro e he
    obtain ⟨p, hp, heq⟩ := h.known e he
    rw [← heq]
    exact hnew p hp
  refine ⟨?_, fun e he => ?_, fun n hn => ?_⟩
  · refine pairwise_append.mpr ⟨?_, h.sorted, fun e he e' he' => ?_⟩
    · refine Pairwise.imp_of_mem (R := fun _ _ => True) (fun {e e'} he he' _ => ?_)
        (pairwise_of_forall (fun _ _ => trivial))
      rw [hes e he, hes e' he']
    · rw [hes e he]
      exact Nat.le_of_lt (hold e' he')
  · rcases mem_append.mp he with he | he
    · exact ⟨_, .head _, (hes e he).symm⟩
    · obtain ⟨p, hp, heq⟩ := h.known e he
      exact ⟨p, .tail _ hp, heq⟩
  · by_cases hlt : n < seqNum
    · rw [hundo n hist hlt, h.rewinds n hn]
      unfold mapAfter
      rw [find?_cons_of_neg (by simpa using hlt)]
    have hle : ∀ e ∈ es ++ hist, e.instSeqNum ≤ n := by
      intro e he
      rcases mem_append.mp he with he | he
      · rw [hes e he]
        omega
      · have := hold e he
        omega
    rw [rewind_of_le hle]
    unfold mapAfter
    rw [find?_cons_of_pos (by simpa using hlt)]

theorem mapAfter_filter (start : RegMap) (renamed : List (Nat × RegMap)) (n k : Nat) :
    mapAfter start (renamed.filter (fun p => p.1 ≤ k)) n = mapAfter start renamed (min n k) := by
  unfold mapAfter
  rw [find?_filter]
  have hboth : (fun p : Nat × RegMap => decide (decide (p.1 ≤ k) = true ∧
      decide (p.1 ≤ n) = true)) =
      fun p => decide (p.1 ≤ min n k) := by
    funext p
    simp only [decide_eq_true_eq]
    exact decide_eq_decide.mpr (by omega)
  rw [hboth]

theorem Tracked.doSquash (h : Tracked hist m start renamed committed) {k : Nat}
    (hk : committed ≤ k) :
    Tracked (hist.dropWhile (fun e => k < e.instSeqNum)) (rewind k hist m) start
      (renamed.filter (fun p => p.1 ≤ k)) committed := by
  have hle := mem_dropWhile_le (n := k) h.sorted
  refine ⟨h.sorted.sublist (dropWhile_sublist _), fun e he => ?_, fun n hn => ?_⟩
  · obtain ⟨p, hp, heq⟩ := h.known e ((dropWhile_sublist _).subset he)
    refine ⟨p, mem_filter.mpr ⟨hp, decide_eq_true ?_⟩, heq⟩
    rw [heq]
    exact hle e he
  · rw [mapAfter_filter]
    by_cases hnk : n ≤ k
    · rw [rewind_rewind hnk, h.rewinds n hn, min_eq_left hnk]
    · rw [rewind_of_le (fun e he => Nat.le_trans (hle e he) (by omega)), h.rewinds k hk,
        min_eq_right (by omega)]

theorem Tracked.removeFromHistory {kept old : List RenameHistory}
    (h : Tracked (kept ++ old) m start renamed committed) (hk : committed ≤ k)
    (hold : ∀ e ∈ old, e.instSeqNum ≤ k) : Tracked kept m start renamed k := by
  refine ⟨(pairwise_append.mp h.sorted).1,
    fun e he => h.known e (mem_append_left _ he), fun n hn => ?_⟩
  rw [← h.rewinds n (hk.trans hn)]
  exact (rewind_append (fun e he => Nat.le_trans (hold e he) hn)).symm

def Checkpoints.Tracked (k : Checkpoints) (tid : Nat) : Prop :=
  Rename.Tracked (k.stage.historyBuffer tid) (k.stage.renameMap tid) (k.start tid) (k.renamed tid)
    (k.committed tid)

variable {k k' : Checkpoints}

theorem Checkpoints.Tracked.step (h : ∀ tid, k.Tracked tid) {m : Move}
    (hstep : (checkpointMachine cfg).step k m k') : ∀ tid, k'.Tracked tid := by
  obtain ⟨-, horder, t, hrun, rfl⟩ := hstep
  -- the other threads keep their maps, histories and records
  have hother : ∀ {tid tid' : Nat} {m : RegMap} {hist : List RenameHistory}, tid' ≠ tid →
      Replaced k.stage t tid m hist → t.historyBuffer tid' = k.stage.historyBuffer tid' ∧
        t.renameMap tid' = k.stage.renameMap tid' := by
    intro tid tid' m hist hne hr
    rw [hr.hist, hr.map]
    exact ⟨update_of_ne hne _ _, update_of_ne hne _ _⟩
  intro tid'
  have hk := h tid'
  cases m with
  | renameInst tid inst =>
    obtain ⟨es, m, hes, hundo, hr⟩ := (renameDestRegs_frame k.stage tid inst).of_ok hrun
    unfold Checkpoints.Tracked at hk ⊢
    dsimp only [Checkpoints.record]
    obtain rfl | heq := eq_or_ne tid' tid
    · rw [update_self, hr.hist_self, hr.map_self]
      exact hk.renameInst horder hes hundo
    · rw [update_of_ne heq, (hother heq hr).1, (hother heq hr).2]
      exact hk
  | doSquash n tid =>
    have hr := (doSquash_frame cfg k.stage n tid).of_ok hrun
    unfold Checkpoints.Tracked at hk ⊢
    dsimp only [Checkpoints.record]
    obtain rfl | heq := eq_or_ne tid' tid
    · rw [update_self, hr.hist_self, hr.map_self]
      exact hk.doSquash horder
    · rw [update_of_ne heq, (hother heq hr).1, (hother heq hr).2]
      exact hk
  | removeFromHistory n tid =>
    obtain ⟨kept, old, hhist, hold, hr⟩ := (removeFromHistory_frame k.stage n tid).of_ok hrun
    unfold Checkpoints.Tracked at hk ⊢
    dsimp only [Checkpoints.record]
    obtain rfl | heq := eq_or_ne tid' tid
    · rw [update_self, hr.hist_self, hr.map_self]
      rw [hhist] at hk
      exact hk.removeFromHistory horder hold
    · rw [update_of_ne heq, (hother heq hr).1, (hother heq hr).2]
      exact hk

theorem Checkpoints.Tracked.of_reachable (h : (checkpointMachine cfg).Reachable k) :
    ∀ tid, k.Tracked tid := by
  refine h.invariant (fun k hk tid => ?_) (fun _ _ _ hi hs => Checkpoints.Tracked.step hi hs)
  obtain ⟨hinit, hstart, hempty⟩ := hk
  have hhist := (initial_bound.of_ok hinit).history tid
  unfold Checkpoints.Tracked
  rw [hhist, (hempty tid).1, hstart]
  exact ⟨List.Pairwise.nil, forall_mem_nil _, fun _ _ => rfl⟩

theorem Checkpoints.kept_of_reachable (h : (checkpointMachine cfg).Reachable k) :
    Kept cfg k.stage := by
  have hinit : ∀ k, (checkpointMachine cfg).init k → Kept cfg k.stage :=
    fun k hk => Kept.of_initial hk.1
  refine h.invariant (I := fun k => Kept cfg k.stage) hinit ?_
  rintro k m _ hi ⟨hm, -, t, hrun, rfl⟩
  have ht : Kept cfg t := (hi.run hm).of_ok hrun
  cases m <;> exact ht

/-- A squash that is not older than the last commit succeeds and leaves the map as it was right
after the youngest instruction that survives was renamed; all other maps stay. -/
theorem rollback_exact {k : Checkpoints} (h : (checkpointMachine cfg).Reachable k) {tid n : Nat}
    (htid : tid < cfg.numThreads) (hn : k.committed tid ≤ n) :
    ∃ t, k.stage.doSquash cfg n tid = .ok t ∧
      t.renameMap tid = mapAfter (k.start tid) (k.renamed tid) n ∧
      ∀ tid', tid' ≠ tid → t.renameMap tid' = k.stage.renameMap tid' := by
  have hok := (Checkpoints.kept_of_reachable h).doSquash n htid
  have hframe := doSquash_frame cfg k.stage n tid
  cases hrun : k.stage.doSquash cfg n tid with
  | error e => exact (Meets.of_error hok hrun).elim
  | ok t =>
    have hr := hframe.of_ok hrun
    refine ⟨t, rfl, ?_, fun tid' hne => ?_⟩
    · rw [hr.map_self]
      exact (Checkpoints.Tracked.of_reachable h tid).rewinds n hn
    · rw [hr.map, update_of_ne hne]

/-- A step with its record, computed. -/
def checkpointMove (cfg : RegConfig) (k : Checkpoints) (m : Move) : Option Checkpoints :=
  if InOrder k m then (move cfg k.stage m).map (fun t => k.record t m) else none

theorem step_of_checkpointMove {m : Move}
    (h : checkpointMove cfg k m = some k') : (checkpointMachine cfg).step k m k' := by
  unfold checkpointMove at h
  split_ifs at h with horder
  obtain ⟨t, ht, rfl⟩ := Option.map_eq_some_iff.mp h
  obtain ⟨hm, hrun⟩ := step_of_move cfg ht
  exact ⟨hm, horder, t, hrun, rfl⟩

def twoThreadsStart : Checkpoints :=
  let stage := (initial twoThreads).toOption.getD (allFree twoThreads)
  ⟨stage, stage.renameMap, fun _ => [], fun _ => 0⟩

/-- An instruction that names one destination twice is squashed, and the one before it is
committed. -/
theorem rollback_exact_two_threads :
    ∃ k, (checkpointMachine twoThreads).Reachable k ∧ k.committed 0 = 1 ∧
      ∃ t, k.stage.doSquash twoThreads 1 0 = .ok t ∧
        t.renameMap 0 = mapAfter (k.start 0) (k.renamed 0) 1 := by
  obtain ⟨k, hr, hk⟩ := Machine.exists_run (M := checkpointMachine twoThreads)
    (f := checkpointMove twoThreads) (s := twoThreadsStart) (fun _ _ _ => step_of_checkpointMove)
    (.start ⟨rfl, rfl, fun _ => ⟨rfl, rfl⟩⟩) [.renameInst 0 ⟨1, [.renamed .int 0]⟩,
      .renameInst 0 ⟨2, [.renamed .int 0, .renamed .int 0]⟩, .removeFromHistory 1 0]
    (P := fun k => k.committed 0 = 1) (by decide)
  obtain ⟨t, ht, hmap, -⟩ := rollback_exact hr (show 0 < 2 by decide) (hk.le)
  exact ⟨k, hr, hk, t, ht, hmap⟩

end Rename

end Gem5.O3
