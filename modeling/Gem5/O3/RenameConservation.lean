import Gem5.O3.Rename
import Gem5.Lib.Ledger

namespace Gem5.O3

open Lib List Function RegConfig Meets

variable {cfg : RegConfig}

namespace RegConfig

theorem mem_physRegs : reg ∈ cfg.physRegs c ↔ cfg.isPhysReg c reg = true := by
  simp [physRegs, isPhysReg, mem_range'_1]

theorem isPhysReg_unique (h : cfg.isPhysReg c reg = true)
    (h' : cfg.isPhysReg c' reg = true) : c = c' := by
  simp only [isPhysReg, Bool.and_eq_true, decide_eq_true_eq] at h h'
  cases c <;> cases c' <;> simp only [baseRegIndex] at h h' <;> first | rfl | omega

end RegConfig

namespace RenameHistory

/-- The register that an entry keeps from use: the previous one, if the mapping changed. -/
def heldReg (c : RegClass) (e : RenameHistory) : Option Nat :=
  match e.archReg with
  | .renamed c' _ => if c' = c ∧ e.newPhysReg ≠ e.prevPhysReg then some e.prevPhysReg else none
  | .misc _ => none

def undo (e : RenameHistory) (m : RegClass → Nat → Nat) : RegClass → Nat → Nat :=
  match e.archReg with
  | .renamed c idx =>
    if e.newPhysReg ≠ e.prevPhysReg then Rename.setMap m c idx e.prevPhysReg else m
  | .misc _ => m

/-- An entry fits the map that it led to. -/
def Fits (cfg : RegConfig) (e : RenameHistory) (m : RegClass → Nat → Nat) : Prop :=
  match e.archReg with
  | .renamed c idx =>
    idx < cfg.numArchRegs c ∧ (e.newPhysReg ≠ e.prevPhysReg → m c idx = e.newPhysReg)
  | .misc _ => e.newPhysReg = e.prevPhysReg

end RenameHistory

namespace Rename

/-- Every entry of a history fits the map that is there once the younger ones are undone. -/
def Undoable (cfg : RegConfig) : List RenameHistory → (RegClass → Nat → Nat) → Prop
  | [], _ => True
  | e :: rest, m => e.Fits cfg m ∧ Undoable cfg rest (e.undo m)

theorem Undoable.dropLast (h : Undoable cfg (l ++ [e]) m) : Undoable cfg l m := by
  induction l generalizing m with
  | nil => trivial
  | cons x l ih => exact ⟨h.1, ih h.2⟩

/-- The entry that is left when all younger ones are undone fits some map. -/
theorem Undoable.last (h : Undoable cfg (l ++ [e]) m) : ∃ m', e.Fits cfg m' := by
  induction l generalizing m with
  | nil => exact ⟨m, h.1⟩
  | cons x l ih => exact ih h.2

/-- What a thread has: the registers it maps, and those that its history keeps. -/
def mapped (cfg : RegConfig) (s : Rename) (c : RegClass) (tid : Nat) : List Nat :=
  (List.range (cfg.numArchRegs c)).map (s.renameMap tid c)

def held (s : Rename) (c : RegClass) (tid : Nat) : List Nat :=
  (s.historyBuffer tid).filterMap (RenameHistory.heldReg c)

/-- The registers of each class are shared out between the free list and the threads. -/
structure Kept (cfg : RegConfig) (s : Rename) : Prop where
  conserved : ∀ c, (s.freeList c ++ (List.range cfg.numThreads).flatMap
    (fun tid => s.mapped cfg c tid ++ s.held c tid)).Perm (cfg.physRegs c)
  undoable : ∀ tid, Undoable cfg (s.historyBuffer tid) (s.renameMap tid)

namespace Kept

variable {s t : Rename} {tid : Nat}

section

variable (h : Kept cfg s) (htid : tid < cfg.numThreads)
  (hmap : ∀ tid', tid' ≠ tid → t.renameMap tid' = s.renameMap tid')
  (hhist : ∀ tid', tid' ≠ tid → t.historyBuffer tid' = s.historyBuffer tid')
include h htid hmap hhist

/-- A change of one thread that only moves registers between it and the free list. -/
theorem change (hperm : ∀ c, (t.freeList c ++ (t.mapped cfg c tid ++ t.held c tid)).Perm
      (s.freeList c ++ (s.mapped cfg c tid ++ s.held c tid)))
    (hundo : Undoable cfg (t.historyBuffer tid) (t.renameMap tid)) : Kept cfg t := by
  refine ⟨fun c => ?_, fun tid' => ?_⟩
  · refine (pool_exchange nodup_range (mem_range.mpr htid) (fun tid' hne => ?_)
      (hperm c)).trans (h.conserved c)
    unfold mapped held
    rw [hmap tid' hne, hhist tid' hne]
  · by_cases heq : tid' = tid
    · rw [heq]
      exact hundo
    · rw [hmap tid' heq, hhist tid' heq]
      exact h.undoable tid'

theorem shift (hother : ∀ c', c' ≠ c → t.freeList c' = s.freeList c' ∧
      t.renameMap tid c' = s.renameMap tid c' ∧ t.held c' tid = s.held c' tid)
    (hcount : ∀ reg, (t.freeList c).count reg + (t.mapped cfg c tid).count reg +
        (t.held c tid).count reg =
      (s.freeList c).count reg + (s.mapped cfg c tid).count reg + (s.held c tid).count reg)
    (hundo : Undoable cfg (t.historyBuffer tid) (t.renameMap tid)) : Kept cfg t := by
  refine h.change htid hmap hhist (fun c' => ?_) hundo
  obtain rfl | hc := eq_or_ne c' c
  · refine perm_iff_count.mpr (fun reg => ?_)
    have := hcount reg
    simp only [count_append]
    omega
  · obtain ⟨hfree, hmap', hheld⟩ := hother c' hc
    rw [hfree, hheld, mapped, mapped, hmap']

end

theorem isPhysReg (h : Kept cfg s) (hreg : reg ∈ s.freeList c ++ (List.range cfg.numThreads).flatMap
      (fun tid => s.mapped cfg c tid ++ s.held c tid)) : cfg.isPhysReg c reg = true :=
  mem_physRegs.mp ((h.conserved c).mem_iff.mp hreg)

theorem mapped_isPhysReg (h : Kept cfg s) (htid : tid < cfg.numThreads)
    (hidx : idx < cfg.numArchRegs c) : cfg.isPhysReg c (s.renameMap tid c idx) = true := by
  refine h.isPhysReg (mem_append_right _ (mem_flatMap.mpr
    ⟨tid, mem_range.mpr htid, mem_append_left _ ?_⟩))
  exact mem_map.mpr ⟨idx, mem_range.mpr hidx, rfl⟩

theorem held_isPhysReg (h : Kept cfg s) (htid : tid < cfg.numThreads) (hreg : reg ∈ s.held c tid) :
    cfg.isPhysReg c reg = true :=
  h.isPhysReg (mem_append_right _ (mem_flatMap.mpr
    ⟨tid, mem_range.mpr htid, mem_append_right _ hreg⟩))

theorem free_isPhysReg (h : Kept cfg s) (hreg : reg ∈ s.freeList c) : cfg.isPhysReg c reg = true :=
  h.isPhysReg (mem_append_left _ hreg)

end Kept

/-! The parts of a state after an update. -/

section

variable (m : RegClass → Nat → Nat)
include m

@[simp] theorem setMap_self (c : RegClass) (idx reg : Nat) :
    setMap m c idx reg c = update (m c) idx reg := update_self _ _ _

@[simp] theorem setMap_of_ne (h : c' ≠ c) (idx reg : Nat) :
    setMap m c idx reg c' = m c' := update_of_ne h _ _

theorem setMap_setMap (c : RegClass) (idx reg : Nat) :
    setMap (setMap m c idx reg) c idx (m c idx) = m := by
  unfold setMap
  rw [update_self, update_idem, update_idem, update_eq_self, update_eq_self]

end

theorem addReg_eq (h : cfg.isPhysReg c reg = true) (s : Rename) :
    s.addReg cfg reg = .ok (s.setFree c (s.freeList c ++ [reg])) := by
  have hother : ∀ c', c' ≠ c → cfg.isPhysReg c' reg = false := by
    intro c' hne
    by_contra h'
    exact hne (isPhysReg_unique (Bool.not_eq_false _ ▸ h') h)
  unfold addReg
  cases c with
  | int => rw [if_pos h]
  | float => rw [hother .int (by decide), if_neg Bool.false_ne_true, if_pos h]
  | cc =>
    rw [hother .int (by decide), if_neg Bool.false_ne_true, hother .float (by decide),
      if_neg Bool.false_ne_true, if_pos h]

/-- A new entry takes the place of the register that was mapped. -/
theorem mapped_setEntry (s : Rename) (tid : Nat) (hidx : idx < cfg.numArchRegs c) (reg : Nat) :
    (reg :: s.mapped cfg c tid).Perm
      (s.renameMap tid c idx :: (s.setEntry tid c idx reg).mapped cfg c tid) := by
  unfold mapped setEntry
  dsimp only
  rw [update_self, setMap_self]
  exact map_exchange nodup_range (mem_range.mpr hidx) _ _

/-! One round of each loop. -/

section

variable (h : Kept cfg s) (htid : tid < cfg.numThreads)
include h htid

theorem Kept.pushUnchanged (hdest : ∀ c idx, dest = .renamed c idx → idx < cfg.numArchRegs c) :
    Kept cfg (s.setHistory tid (⟨seqNum, dest, reg, reg⟩ :: s.historyBuffer tid)) := by
  have hheld : ∀ c, RenameHistory.heldReg c ⟨seqNum, dest, reg, reg⟩ = none := by
    intro c
    cases dest <;> simp [RenameHistory.heldReg]
  refine h.change htid (fun _ _ => rfl) (fun tid' hne => update_of_ne hne _ _)
    (fun c => ?_) ?_
  · refine List.Perm.of_eq ?_
    simp only [setHistory, mapped, held, update_self, filterMap_cons, hheld c]
  simp only [setHistory, update_self]
  cases dest with
  | misc idx => exact ⟨rfl, h.undoable tid⟩
  | renamed c idx =>
    refine ⟨⟨hdest c idx rfl, fun hne => absurd rfl hne⟩, ?_⟩
    have hundo : RenameHistory.undo ⟨seqNum, .renamed c idx, reg, reg⟩ (s.renameMap tid) =
        s.renameMap tid := by simp [RenameHistory.undo]
    rw [hundo]
    exact h.undoable tid

theorem Kept.free_ne_mapped (hidx : idx < cfg.numArchRegs c) (hreg : reg ∈ s.freeList c) :
    reg ≠ s.renameMap tid c idx := by
  have hnodup := (h.conserved c).nodup_iff.mpr nodup_range'
  refine (nodup_append.mp hnodup).2.2 reg hreg _ ?_
  refine mem_flatMap.mpr ⟨tid, mem_range.mpr htid, mem_append_left _ ?_⟩
  exact mem_map.mpr ⟨idx, mem_range.mpr hidx, rfl⟩

/-- A register leaves the free list for the map, and the history keeps the old one. -/
theorem Kept.pushRenamed (hidx : idx < cfg.numArchRegs c) (hfree : s.freeList c = reg :: rest) :
    Kept cfg (((s.setFree c rest).setEntry tid c idx reg).setHistory tid
      (⟨seqNum, .renamed c idx, reg, s.renameMap tid c idx⟩ :: s.historyBuffer tid)) := by
  have hne := h.free_ne_mapped htid hidx (hfree ▸ mem_cons_self)
  refine h.shift htid (fun tid' hne => update_of_ne hne _ _)
    (fun tid' hne => update_of_ne hne _ _) (c := c) (fun c' hc => ⟨?_, ?_, ?_⟩)
    (fun r => ?_) ?_
  · exact update_of_ne hc _ _
  · simp [setHistory, setEntry, setFree, hc]
  · simp [setHistory, held, RenameHistory.heldReg, Ne.symm hc]
  · have hmapped := (s.mapped_setEntry tid hidx reg).count_eq r
    have hmapped' : (((s.setFree c rest).setEntry tid c idx reg).setHistory tid
        (⟨seqNum, .renamed c idx, reg, s.renameMap tid c idx⟩ ::
          s.historyBuffer tid)).mapped cfg c tid =
        (s.setEntry tid c idx reg).mapped cfg c tid := rfl
    have hheld : (((s.setFree c rest).setEntry tid c idx reg).setHistory tid
        (⟨seqNum, .renamed c idx, reg, s.renameMap tid c idx⟩ :: s.historyBuffer tid)).held c tid =
        s.renameMap tid c idx :: s.held c tid := by
      simp [setHistory, held, RenameHistory.heldReg, hne]
    have hfree' : (((s.setFree c rest).setEntry tid c idx reg).setHistory tid
        (⟨seqNum, .renamed c idx, reg, s.renameMap tid c idx⟩ :: s.historyBuffer tid)).freeList c =
        rest := update_self _ _ _
    rw [hmapped', hheld, hfree', hfree]
    simp only [count_cons] at hmapped ⊢
    omega
  · simp only [setHistory, setEntry, setFree, update_self]
    refine ⟨⟨hidx, fun _ => ?_⟩, ?_⟩
    · rw [setMap_self, update_self]
    · have hundo : RenameHistory.undo ⟨seqNum, .renamed c idx, reg, s.renameMap tid c idx⟩
          (setMap (s.renameMap tid) c idx reg) = s.renameMap tid := by
        simp only [RenameHistory.undo, if_pos hne, setMap_setMap]
      rw [hundo]
      exact h.undoable tid

end

/-- Forgetting the youngest or the oldest entry, if it changed no mapping. -/
theorem Kept.dropUnchanged {entries : List RenameHistory} (h : Kept cfg s)
    (htid : tid < cfg.numThreads) (hundo : Undoable cfg entries (s.renameMap tid))
    (hheld : ∀ c, entries.filterMap (RenameHistory.heldReg c) = s.held c tid) :
    Kept cfg (s.setHistory tid entries) := by
  refine h.change htid (fun _ _ => rfl) (fun tid' hne => update_of_ne hne _ _)
    (fun c => ?_) ?_
  · refine List.Perm.of_eq ?_
    rw [← hheld c]
    simp only [setHistory, mapped, held, update_self]
  · simp only [setHistory, update_self]
    exact hundo

variable {e : RenameHistory} {rest : List RenameHistory}

theorem heldReg_of_eq (h : e.newPhysReg = e.prevPhysReg) (c : RegClass) : e.heldReg c = none := by
  unfold RenameHistory.heldReg
  split <;> simp [h]

theorem undo_of_eq (h : e.newPhysReg = e.prevPhysReg)
    (m : RegClass → Nat → Nat) : e.undo m = m := by
  unfold RenameHistory.undo
  split <;> simp [h]

section

variable {s : Rename} {tid : Nat} (h : Kept cfg s) (htid : tid < cfg.numThreads)
include h htid

/-- A squash maps the old register again and frees the new one. -/
theorem Kept.undoEntry (hhist : s.historyBuffer tid = e :: rest) :
    Yields (s.undoEntry cfg tid e) (fun t => Kept cfg (t.setHistory tid rest)) := by
  have hundo := h.undoable tid
  rw [hhist] at hundo
  obtain ⟨hfits, hrest⟩ := hundo
  unfold Rename.undoEntry
  split_ifs with hne
  · obtain ⟨seqNum, dest, new, prev⟩ := e
    cases dest with
    | misc idx => exact absurd hfits hne
    | renamed c idx =>
      obtain ⟨hidx, hnew⟩ := hfits
      have hnew : s.renameMap tid c idx = new := hnew hne
      have hundo : RenameHistory.undo ⟨seqNum, .renamed c idx, new, prev⟩ (s.renameMap tid) =
          setMap (s.renameMap tid) c idx prev := if_pos hne
      rw [hundo] at hrest
      have hheld : s.held c tid = prev :: rest.filterMap (RenameHistory.heldReg c) := by
        simp [held, hhist, RenameHistory.heldReg, hne]
      have hprev : cfg.isPhysReg c prev = true :=
        h.held_isPhysReg htid (hheld ▸ .head _)
      have hphys := h.mapped_isPhysReg htid hidx
      rw [hnew] at hphys
      dsimp only
      rw [if_pos hprev, addReg_eq hphys]
      refine .ok (h.shift htid (fun tid' hne => update_of_ne hne _ _)
        (fun tid' hne => update_of_ne hne _ _) (c := c) (fun c' hc => ⟨?_, ?_, ?_⟩)
        (fun r => ?_) ?_)
      · exact update_of_ne hc _ _
      · simp [setHistory, setEntry, setFree, hc]
      · simp [setHistory, held, hhist, RenameHistory.heldReg, Ne.symm hc]
      · have hmapped := (s.mapped_setEntry tid hidx prev).count_eq r
        have hfree : (s.setEntry tid c idx prev).freeList = s.freeList := rfl
        rw [hnew] at hmapped
        rw [hheld]
        simp only [setFree, setHistory, held, hfree, update_self, count_append,
          count_cons, count_nil] at hmapped ⊢
        change _ + ((s.setEntry tid c idx prev).mapped cfg c tid).count r + _ = _
        omega
      · simp only [setHistory, setEntry, setFree, update_self]
        exact hrest
  · rw [not_not] at hne
    rw [undo_of_eq hne] at hrest
    refine .ok (h.dropUnchanged htid hrest (fun c => ?_))
    rw [held, hhist, filterMap_cons, heldReg_of_eq hne]

/-- At commit the old register is freed. -/
theorem Kept.freePrev (hhist : s.historyBuffer tid = rest ++ [e]) :
    Yields (s.freePrev cfg e) (fun t => Kept cfg (t.setHistory tid rest)) := by
  have hundo := h.undoable tid
  rw [hhist] at hundo
  unfold Rename.freePrev
  split_ifs with hne
  · obtain ⟨seqNum, dest, new, prev⟩ := e
    obtain ⟨m, hfits⟩ := hundo.last
    cases dest with
    | misc idx => exact absurd hfits hne
    | renamed c idx =>
      have hheld : s.held c tid = rest.filterMap (RenameHistory.heldReg c) ++ [prev] := by
        simp [held, hhist, RenameHistory.heldReg, hne]
      have hprev : cfg.isPhysReg c prev = true :=
        h.held_isPhysReg htid (hheld ▸ mem_append_right _ mem_cons_self)
      rw [addReg_eq hprev]
      refine .ok (h.shift htid (fun _ _ => rfl) (fun tid' hne => update_of_ne hne _ _)
        (c := c) (fun c' hc => ⟨?_, rfl, ?_⟩) (fun r => ?_) ?_)
      · exact update_of_ne hc _ _
      · simp [setHistory, held, hhist, RenameHistory.heldReg, Ne.symm hc]
      · rw [hheld]
        simp only [setFree, setHistory, held, update_self, count_append]
        change _ + (s.mapped cfg c tid).count r + _ = _
        omega
      · simp only [setHistory, setFree, update_self]
        exact hundo.dropLast
  · rw [not_not] at hne
    refine .ok (h.dropUnchanged htid hundo.dropLast (fun c => ?_))
    rw [held, hhist, filterMap_append, filterMap_cons, heldReg_of_eq hne,
      filterMap_nil, append_nil]

end

/-- Renaming a register: a zero register that is mapped to itself stays, and any other gets
the first free register. -/
theorem Kept.renameReg (h : Kept cfg s)
    (htid : tid < cfg.numThreads) (hidx : idx < cfg.numArchRegs c) (hfree : s.freeList c ≠ []) :
    Meets (s.renameReg cfg tid c idx) (· = .zeroReg) (fun p =>
      p = (cfg.zeroReg c, cfg.zeroReg c, s) ∨ ∃ reg rest, s.freeList c = reg :: rest ∧
        p = (reg, s.renameMap tid c idx, (s.setFree c rest).setEntry tid c idx reg)) := by
  unfold Rename.renameReg
  dsimp only
  split
  · obtain ⟨reg, rest, hregs⟩ := exists_cons_of_ne_nil hfree
    have hget : s.getReg c = .ok (reg, s.setFree c rest) := by
      simp only [getReg, hregs]
    have hphys : cfg.isPhysReg c reg = true := h.free_isPhysReg (hregs ▸ .head _)
    refine bind (Q := (· = (reg, s.setFree c rest))) (by rw [hget]; exact rfl) ?_
    rintro _ rfl
    rw [if_pos hphys]
    exact .pure (.inr ⟨reg, rest, hregs, rfl⟩)
  · split
    · exact .throw rfl
    rename_i hzero
    rw [not_not] at hzero
    have hphys := h.mapped_isPhysReg htid hidx
    rw [hzero] at hphys
    rw [if_pos hphys, hzero]
    exact .pure (.inl rfl)

theorem numDestRegs_cons (dest : ArchReg) (dests : List ArchReg) (c : RegClass) :
    numDestRegs (dest :: dests) c = numDestRegs dests c + numDestRegs [dest] c := by
  simp only [numDestRegs, countP_cons, countP_nil, zero_add]

/-- Renaming one destination. It can only fail at a zero register that is mapped elsewhere. -/
theorem Kept.renameDestReg (h : Kept cfg s) (htid : tid < cfg.numThreads)
    (hwf : WellFormed cfg (dest :: dests))
    (hfree : ∀ c, numDestRegs (dest :: dests) c ≤ (s.freeList c).length) :
    Meets (s.renameDestReg cfg tid seqNum dest) (· = .zeroReg) (fun t =>
      Kept cfg t ∧ WellFormed cfg dests ∧ ∀ c, numDestRegs dests c ≤ (t.freeList c).length) := by
  have hwf' : WellFormed cfg dests := fun d hd => hwf d (.tail _ hd)
  have hle : ∀ c, numDestRegs dests c ≤ (s.freeList c).length := fun c => by
    have := hfree c
    rw [numDestRegs_cons] at this
    omega
  cases dest with
  | misc idx =>
    exact .ok ⟨h.pushUnchanged htid nofun, hwf', hle⟩
  | renamed c idx =>
    have hidx : idx < cfg.numArchRegs c := hwf _ mem_cons_self
    have hlen : numDestRegs dests c + 1 ≤ (s.freeList c).length := by
      have := hfree c
      rw [numDestRegs_cons] at this
      simpa [numDestRegs] using this
    have hne : s.freeList c ≠ [] := by
      intro hnil
      rw [hnil] at hlen
      simp at hlen
    refine (h.renameReg htid hidx hne).bind ?_
    rintro _ (rfl | ⟨reg, rest, hregs, rfl⟩)
    · refine .pure ⟨h.pushUnchanged htid (fun c' idx' hdest => ?_), hwf', hle⟩
      cases hdest
      exact hidx
    refine .pure ⟨h.pushRenamed htid hidx hregs, hwf', fun c' => ?_⟩
    obtain rfl | hc := eq_or_ne c' c
    · rw [hregs] at hlen
      simpa [setHistory, setEntry, setFree] using hlen
    · have hsame : (s.setFree c rest).freeList c' = s.freeList c' := update_of_ne hc _ _
      exact hsame ▸ hle c'

/-! Whole operations, and runs. -/

/-- Rename has a free register for every destination that needs one. -/
theorem Kept.renameDestRegs (h : Kept cfg s)
    (htid : tid < cfg.numThreads) (hwf : WellFormed cfg inst.destRegs) (hcan : s.canRename inst) :
    Meets (s.renameDestRegs cfg tid inst) (· = .zeroReg) (Kept cfg) := by
  refine (foldlM_left
    (R := fun dests t => Kept cfg t ∧ WellFormed cfg dests ∧
      ∀ c, numDestRegs dests c ≤ (t.freeList c).length)
    ⟨h, hwf, fun c => hcan c (by cases c <;> simp)⟩ ?_).mono (fun t ht => ht.1)
  rintro dest dests t ⟨ht, hwf, hfree⟩
  exact ht.renameDestReg htid hwf hfree

theorem Kept.doSquash (h : Kept cfg s) (squashedSeqNum : Nat) (htid : tid < cfg.numThreads) :
    Yields (s.doSquash cfg squashedSeqNum tid) (Kept cfg) := by
  have hloop : ∀ entries s, Kept cfg s → s.historyBuffer tid = entries →
      Yields (doSquashLoop cfg squashedSeqNum tid entries s) (Kept cfg) := by
    intro entries
    induction entries with
    | nil => exact fun s hs _ => .ok hs
    | cons e rest ih =>
      intro s hs hhist
      unfold doSquashLoop
      split
      · exact (hs.undoEntry htid hhist).bind
          (fun t ht => ih _ ht (update_self _ _ _))
      · exact .ok hs
  exact hloop _ s h rfl

theorem Kept.removeFromHistory (h : Kept cfg s) (htid : tid < cfg.numThreads) :
    Yields (s.removeFromHistory cfg instSeqNum tid) (Kept cfg) := by
  have hloop : ∀ entries s, Kept cfg s → s.historyBuffer tid = entries.reverse →
      Yields (removeLoop cfg instSeqNum tid entries s) (Kept cfg) := by
    intro entries
    induction entries with
    | nil => exact fun s hs _ => .ok hs
    | cons e rest ih =>
      intro s hs hhist
      unfold removeLoop
      split
      · rw [reverse_cons] at hhist
        exact (hs.freePrev htid hhist).bind
          (fun t ht => ih _ ht (update_self _ _ _))
      · exact .ok hs
  exact hloop _ s h (reverse_reverse _).symm

theorem Kept.run (h : Kept cfg s) (hm : Enabled cfg s m) :
    Meets (run cfg s m) (· = .zeroReg) (Kept cfg) := by
  cases m with
  | renameInst tid inst => exact h.renameDestRegs hm.1 hm.2.1 hm.2.2
  | doSquash squashedSeqNum tid =>
    exact mono_error (h.doSquash squashedSeqNum hm) (fun _ => False.elim)
  | removeFromHistory instSeqNum tid =>
    exact mono_error (h.removeFromHistory hm) (fun _ => False.elim)

/-! The start of a run. -/

theorem renameMap_setEntry (s : Rename) (tid tid' idx idx' reg : Nat) (c c' : RegClass) :
    (s.setEntry tid c idx reg).renameMap tid' c' idx' =
      if (tid', c', idx') = (tid, c, idx) then reg else s.renameMap tid' c' idx' := by
  simp only [setEntry, setMap, update_apply, Prod.mk.injEq]
  obtain rfl | htid := eq_or_ne tid' tid
  · obtain rfl | hc := eq_or_ne c' c
    · by_cases hidx : idx' = idx <;> simp [hidx]
    · simp [hc]
  · simp [htid]

/-- The registers that some keys are bound to. -/
def boundRegs (s : Rename) (c : RegClass) (keys : List (Nat × RegClass × Nat)) : List Nat :=
  (keys.filter (fun k => k.2.1 = c)).map (fun k => s.renameMap k.1 c k.2.2)

structure Bound (cfg : RegConfig) (s : Rename) (keys : List (Nat × RegClass × Nat)) : Prop where
  conserved : ∀ c, (s.freeList c ++ s.boundRegs c keys).Perm (cfg.physRegs c)
  history : ∀ tid, s.historyBuffer tid = []

/-- The constructor takes a register from the free list for each entry of a map. -/
theorem Bound.bindReg {keys : List (Nat × RegClass × Nat)} {key : Nat × RegClass × Nat}
    (h : Bound cfg s keys) (hkey : key ∉ keys)
    (hlt : (keys.filter (fun k => k.2.1 = key.2.1)).length < cfg.numPhysRegs key.2.1) :
    Yields (s.bindReg cfg key) (fun t => Bound cfg t (keys ++ [key])) := by
  obtain ⟨tid, c, idx⟩ := key
  have hne : s.freeList c ≠ [] := by
    intro hnil
    have hlength := (h.conserved c).length_eq
    rw [hnil, boundRegs, physRegs, nil_append, length_map,
      length_range'] at hlength
    dsimp only at hlt
    omega
  obtain ⟨reg, rest, hfree⟩ := exists_cons_of_ne_nil hne
  have hphys : cfg.isPhysReg c reg = true :=
    mem_physRegs.mp ((h.conserved c).mem_iff.mp (by rw [hfree]; exact .head _))
  have hget : s.getReg c = .ok (reg, s.setFree c rest) := by simp only [getReg, hfree]
  refine bind (Q := (· = (reg, s.setFree c rest))) (by rw [hget]; exact rfl) ?_
  rintro _ rfl
  dsimp only
  rw [if_pos hphys]
  refine .pure ⟨fun c' => ?_, h.history⟩
  have hsame : ((s.setFree c rest).setEntry tid c idx reg).boundRegs c' keys =
      s.boundRegs c' keys := by
    refine map_congr_left (fun k hk => ?_)
    obtain ⟨hk, hcls⟩ := mem_filter.mp hk
    have hcls : k.2.1 = c' := of_decide_eq_true hcls
    rw [renameMap_setEntry, if_neg]
    · rfl
    · rw [← hcls]
      intro heq
      exact hkey (heq ▸ hk)
  have hlast : ((s.setFree c rest).setEntry tid c idx reg).boundRegs c' (keys ++ [(tid, c, idx)]) =
      s.boundRegs c' keys ++ if c = c' then [reg] else [] := by
    rw [boundRegs, filter_append, map_append, ← boundRegs, hsame]
    obtain rfl | hc := eq_or_ne c c'
    · simp [renameMap_setEntry]
    · simp [hc]
  rw [hlast]
  refine List.Perm.trans ?_ (h.conserved c')
  obtain rfl | hc := eq_or_ne c c'
  · have hrest : (((s.setFree c rest).setEntry tid c idx reg).freeList c) = rest :=
      update_self _ _ _
    rw [if_pos rfl, hrest, hfree, ← append_assoc]
    exact perm_append_singleton _ _
  · have hrest : (((s.setFree c rest).setEntry tid c idx reg).freeList c') = s.freeList c' :=
      update_of_ne (Ne.symm hc) _ _
    rw [if_neg hc, hrest, append_nil]

theorem threadRegs_nodup (tid : Nat) : (threadRegs cfg tid).Nodup := by
  have hcls : [RegClass.int, .float, .cc].Nodup := by decide
  refine nodup_flatMap.mpr ⟨fun c _ => ?_, hcls.imp (fun {c c'} hne k hk hk' => ?_)⟩
  · exact nodup_range.map (fun i j hij => (Prod.mk.inj (Prod.mk.inj hij).2).2)
  · obtain ⟨idx, -, rfl⟩ := mem_map.mp hk
    obtain ⟨idx', -, heq⟩ := mem_map.mp hk'
    exact hne (Prod.mk.inj (Prod.mk.inj heq).2).1.symm

theorem mem_threadRegs (h : k ∈ threadRegs cfg tid) : k.1 = tid := by
  obtain ⟨c, -, hk⟩ := mem_flatMap.mp h
  obtain ⟨idx, -, rfl⟩ := mem_map.mp hk
  rfl

theorem filter_threadRegs (tid : Nat) (c : RegClass) :
    (threadRegs cfg tid).filter (fun k => k.2.1 = c) =
      (List.range (cfg.numArchRegs c)).map (fun idx => (tid, c, idx)) := by
  have hcls : ∀ c', ((List.range (cfg.numArchRegs c')).map (fun idx => (tid, c', idx))).filter
      (fun k => k.2.1 = c) =
        if c' = c then (List.range (cfg.numArchRegs c)).map (fun idx => (tid, c, idx)) else [] := by
    intro c'
    split_ifs with hc
    · subst hc
      refine filter_eq_self.mpr (fun k hk => ?_)
      obtain ⟨idx, -, rfl⟩ := mem_map.mp hk
      exact decide_eq_true rfl
    · refine filter_eq_nil_iff.mpr (fun k hk hkc => ?_)
      obtain ⟨idx, -, rfl⟩ := mem_map.mp hk
      exact hc (of_decide_eq_true hkc)
  simp only [threadRegs, flatMap_cons, flatMap_nil, filter_append, hcls]
  cases c <;> simp

def allRegs (cfg : RegConfig) : List (Nat × RegClass × Nat) :=
  (List.range cfg.numThreads).flatMap (threadRegs cfg)

theorem allRegs_nodup (cfg : RegConfig) : (allRegs cfg).Nodup := by
  refine nodup_flatMap.mpr ⟨fun tid _ => threadRegs_nodup tid,
    nodup_range.imp (fun {tid tid'} hne k hk hk' => ?_)⟩
  exact hne ((mem_threadRegs hk).symm.trans (mem_threadRegs hk'))

theorem length_filter_allRegs (cfg : RegConfig) (c : RegClass) :
    ((allRegs cfg).filter (fun k => k.2.1 = c)).length = cfg.numThreads * cfg.numArchRegs c := by
  simp [allRegs, filter_flatMap, filter_threadRegs, length_flatMap]

theorem initial_bound : Yields (initial cfg) (fun s => Bound cfg s (allRegs cfg)) := by
  refine (foldlM_left
    (R := fun left t => ∃ done, allRegs cfg = done ++ left ∧ Bound cfg t done)
    ⟨[], rfl, ⟨fun c => by simp [allFree, boundRegs], fun _ => rfl⟩⟩ ?_).mono ?_
  · rintro key left t ⟨done, hkeys, ht⟩
    have hkey : key ∉ done := by
      have hnodup := allRegs_nodup cfg
      rw [hkeys] at hnodup
      exact fun hin => (nodup_append.mp hnodup).2.2 key hin key mem_cons_self rfl
    have hlt : (done.filter (fun k => k.2.1 = key.2.1)).length < cfg.numPhysRegs key.2.1 := by
      have hlength := length_filter_allRegs cfg key.2.1
      have henough := cfg.enough key.2.1
      rw [hkeys, filter_append, length_append] at hlength
      have hpos : 0 < ((key :: left).filter (fun k => k.2.1 = key.2.1)).length :=
        length_pos_of_mem (mem_filter.mpr ⟨.head _, decide_eq_true rfl⟩)
      omega
    refine (ht.bindReg hkey hlt).mono (fun u hu => ⟨done ++ [key], ?_, hu⟩)
    rw [hkeys, append_assoc, singleton_append]
  · rintro s ⟨done, hkeys, hs⟩
    rw [append_nil] at hkeys
    rwa [hkeys]

theorem Kept.of_initial (h : initial cfg = .ok s) : Kept cfg s := by
  have hbound := initial_bound.of_ok h
  refine ⟨fun c => ?_, fun tid => ?_⟩
  · have hall : s.boundRegs c (allRegs cfg) =
        (List.range cfg.numThreads).flatMap (fun tid => s.mapped cfg c tid ++ s.held c tid) := by
      rw [boundRegs, allRegs, filter_flatMap, map_flatMap]
      refine flatMap_congr (fun tid _ => ?_)
      rw [filter_threadRegs, map_map, held, hbound.history tid, filterMap_nil,
        append_nil]
      rfl
    rw [← hall]
    exact hbound.conserved c
  · rw [hbound.history tid]
    trivial

theorem Kept.of_reachable (h : (machine cfg).Reachable s) : Kept cfg s :=
  h.invariant (fun _ => Kept.of_initial) (fun _ _ _ hi hs => (hi.run hs.1).of_ok hs.2)

/-- In every run each physical register of a class is once on the free list, mapped once by
one thread, or kept once by one history, and no two of these; and no operation fails, unless
it renames a zero register that the constructor has mapped to another one. -/
theorem registers_conserved {s : Rename} (h : (machine cfg).Reachable s) :
    (∀ c reg, cfg.isPhysReg c reg = true → (s.freeList c).count reg +
        ((List.range cfg.numThreads).flatMap (s.mapped cfg c)).count reg +
        ((List.range cfg.numThreads).flatMap (s.held c)).count reg = 1) ∧
      ∀ m, Enabled cfg s m → ∀ e, run cfg s m = .error e → e = .zeroReg := by
  have hs := Kept.of_reachable h
  refine ⟨fun c reg hreg => ?_, fun m hm e he => (hs.run hm).of_error he⟩
  have hcount := (hs.conserved c).count_eq reg
  have hsplit := (flatMap_append_perm (List.range cfg.numThreads) (s.mapped cfg c)
    (s.held c)).count_eq reg
  have hone := count_eq_one_of_mem nodup_range' (mem_physRegs.mpr hreg)
  rw [count_append, ← hsplit, count_append, physRegs, hone] at hcount
  omega

/-- Two threads with two integer registers each, of which the second is the zero register. -/
def twoThreads : RegConfig where
  numThreads := 2
  numArchRegs
    | .int => 2
    | .float => 1
    | .cc => 0
  numPhysRegs
    | .int => 7
    | .float => 3
    | .cc => 0
  zeroReg
    | .int => 1
    | _ => 100
  enough c := by cases c <;> decide

/-- Both threads rename a register, one of them twice, with a squash and a commit. -/
theorem registers_conserved_two_threads : ∃ s, (machine twoThreads).Reachable s ∧
      (s.freeList .int).count 4 + ((List.range 2).flatMap (s.mapped twoThreads .int)).count 4 +
        ((List.range 2).flatMap (s.held .int)).count 4 = 1 := by
  obtain ⟨s, hr, hs⟩ := Machine.exists_run (M := machine twoThreads) (f := move twoThreads)
    (fun _ _ _ => step_of_move twoThreads)
    (.start (s := (initial twoThreads).toOption.getD (allFree twoThreads)) rfl)
    [.renameInst 0 ⟨1, [.renamed .int 0, .renamed .int 0, .renamed .int 1, .misc 3]⟩,
      .renameInst 1 ⟨2, [.renamed .int 0, .renamed .float 0]⟩, .removeFromHistory 1 0,
      .doSquash 1 1] (P := fun s => s.freeList .int = [0, 4, 6]) (by decide)
  exact ⟨s, hr, (registers_conserved hr).1 .int 4 (by decide)⟩

end Rename

end Gem5.O3
