import Gem5.Minor.Barriers

namespace Gem5.Minor

open Lib List Option StoreSlot

/-! One barrier for a thread stands for all of them, as long as steps are orderly. -/

namespace MinorThread

variable {t : MinorThread} {slots : List StoreSlot}

/-- The entries of the store buffer and the instructions in flight of a thread are in order, and the
barriers among them are those that have not been cleared. The newest of them is remembered, and is
older than what waits for any of them. -/
structure Inv (slots : List StoreSlot) (t : MinorThread) : Prop where
  sorted : (slots.map StoreSlot.execSeqNum ++
    t.inFlightInsts.map MinorInst.execSeqNum).Pairwise (· < ·)
  bound : ∀ n ∈ slots.map StoreSlot.execSeqNum ++ t.inFlightInsts.map MinorInst.execSeqNum,
    0 < n ∧ n ≤ t.issued
  barriers : ∀ b, b ∈ t.barriers ↔ (∃ s ∈ slots, s.isBarrier = true ∧ s.execSeqNum = b) ∨
    ∃ i ∈ t.inFlightInsts, i.isMemBarrier = true ∧ i.execSeqNum = b
  newest : (t.barriers = ∅ ∧ t.lastMemBarrier = 0) ∨
    (t.lastMemBarrier ∈ t.barriers ∧ ∀ b ∈ t.barriers, b ≤ t.lastMemBarrier)
  waits : ∀ b ∈ t.barriers, ∀ i ∈ t.inFlightInsts, i.isMemRef = true → i.inLSQ = false →
    b < i.execSeqNum → t.lastMemBarrier < i.execSeqNum
  outside : ∀ i ∈ t.inFlightInsts, i.inStoreBuffer = false

/-- A barrier that is in flight is the end of the line or before it. -/
theorem Inv.barrier_le (h : Inv slots t) (hb : b ∈ t.barriers) : 0 < b ∧ b ≤ t.issued := by
  apply h.bound
  rcases (h.barriers b).mp hb with ⟨s, hs, -, rfl⟩ | ⟨i, hi, -, rfl⟩
  · exact mem_append_left _ (mem_map_of_mem hs)
  · exact mem_append_right _ (mem_map_of_mem hi)

theorem Inv.last_le (h : Inv slots t) : t.lastMemBarrier ≤ t.issued := by
  rcases h.newest with ⟨-, hzero⟩ | ⟨hlast, -⟩
  · rw [hzero]
    exact Nat.zero_le _
  · exact (h.barrier_le hlast).2

/-- No barrier that is left is older than a memory reference that is not held back. -/
theorem Inv.not_younger (h : Inv slots t) (hi : i ∈ t.inFlightInsts)
    (href : i.isMemRef = true) (hlsq : i.inLSQ = false) (hfree : t.heldBack i.execSeqNum = false)
    (hb : b ∈ t.barriers) : ¬b < i.execSeqNum := by
  intro hlt
  have hlast := h.waits b hb i hi href hlsq hlt
  rcases h.newest with ⟨hnone, -⟩ | ⟨hmem, -⟩
  · rw [hnone] at hb
    cases hb
  · have hpos := (h.barrier_le hmem).1
    simp [heldBack, hlast] at hfree
    omega

theorem Inv.issue {allowEarly isMemRef isMemBarrier : Bool} (h : Inv slots t)
    (hseq : t.issued < seq)
    (horderly : isMemBarrier = true → ∀ b ∈ t.barriers, (isMemRef = true → ¬b < seq) ∧
      ∀ i ∈ t.inFlightInsts, i.isMemRef = true → i.inLSQ = false → ¬b < i.execSeqNum)
    (ht' : t.issue allowEarly seq isMemRef isMemBarrier dependsOn = some t') : Inv slots t' := by
  have hsorted : ∀ l : List MinorInst, l.map MinorInst.execSeqNum = [seq] →
      (slots.map execSeqNum ++
        (t.inFlightInsts ++ l).map MinorInst.execSeqNum).Pairwise (· < ·) ∧
      ∀ n ∈ slots.map execSeqNum ++ (t.inFlightInsts ++ l).map MinorInst.execSeqNum,
        0 < n ∧ n ≤ seq := by
    intro l hl
    rw [map_append, hl, ← append_assoc]
    constructor
    · refine pairwise_append.mpr ⟨h.sorted, pairwise_singleton _ _, fun n hn m hm => ?_⟩
      rw [mem_singleton.mp hm]
      exact Nat.lt_of_le_of_lt (h.bound n hn).2 hseq
    intro n hn
    rcases mem_append.mp hn with hn | hn
    · have := h.bound n hn
      omega
    · rw [mem_singleton.mp hn]
      omega
  have houtside : ∀ inst : MinorInst, inst.inStoreBuffer = false →
      ∀ i ∈ t.inFlightInsts ++ [inst], i.inStoreBuffer = false := by
    intro inst hinst i hi
    rcases mem_append.mp hi with hi | hi
    · exact h.outside i hi
    · rwa [mem_singleton.mp hi]
  have hlast := h.last_le
  unfold MinorThread.issue at ht'
  cases isMemBarrier with
  | false =>
    obtain rfl := some.inj ht'
    refine ⟨(hsorted _ rfl).1, (hsorted _ rfl).2, fun b => ?_, h.newest,
      fun b hb i hi href hlsq hlt => ?_, houtside _ rfl⟩
    · rw [h.barriers b]
      simp
    · rcases mem_append.mp hi with hi | hi
      · exact h.waits b hb i hi href hlsq hlt
      · rw [mem_singleton.mp hi]
        exact hlast.trans_lt hseq
  | true =>
    rw [if_pos rfl, issuedMemBarrierInst, if_pos (hlast.trans_lt hseq)] at ht'
    obtain rfl := some.inj ht'
    refine ⟨(hsorted _ rfl).1, (hsorted _ rfl).2, fun b => ?_,
      .inr ⟨Finset.mem_insert_self _ _, ?_⟩,
      fun b hb i hi href hlsq hlt => ?_, houtside _ rfl⟩
    · rw [Finset.mem_insert, h.barriers b]
      simp only [mem_append, mem_singleton]
      constructor
      · rintro (rfl | hs | ⟨i, hi, hbarrier⟩)
        · exact .inr ⟨_, .inr rfl, rfl, rfl⟩
        · exact .inl hs
        · exact .inr ⟨i, .inl hi, hbarrier⟩
      · rintro (hs | ⟨i, hi | rfl, hbarrier⟩)
        · exact .inr (.inl hs)
        · exact .inr (.inr ⟨i, hi, hbarrier⟩)
        · exact .inl hbarrier.2.symm
    · intro b hb
      rcases Finset.mem_insert.mp hb with rfl | hb
      · exact le_rfl
      · exact Nat.le_of_lt (Nat.lt_of_le_of_lt (h.barrier_le hb).2 hseq)
    · -- nothing that is in flight is younger than the new barrier, or waits for an older one
      have hi' : i.execSeqNum ≤ seq :=
        ((hsorted _ rfl).2 _ (mem_append_right _ (mem_map_of_mem hi))).2
      rcases Finset.mem_insert.mp hb with rfl | hb
      · exact absurd hlt (not_lt.mpr hi')
      · rcases mem_append.mp hi with hi | hi
        · exact absurd hlt ((horderly rfl b hb).2 i hi href hlsq)
        · obtain rfl := mem_singleton.mp hi
          exact absurd hlt ((horderly rfl b hb).1 href)

/-- An instruction changes, but not what it is, and does not leave the LSQ. -/
theorem Inv.modifyInst (h : Inv slots t) (seq : Nat) (hseq : ∀ i, (f i).execSeqNum = i.execSeqNum)
    (href : ∀ i, (f i).isMemRef = i.isMemRef)
    (hbarrier : ∀ i, (f i).isMemBarrier = i.isMemBarrier)
    (hlsq : ∀ i, (f i).inLSQ = false → i.inLSQ = false)
    (hbuffer : ∀ i, (f i).inStoreBuffer = i.inStoreBuffer) : Inv slots (t.modifyInst seq f) := by
  have hmap : (t.modifyInst seq f).inFlightInsts.map MinorInst.execSeqNum =
      t.inFlightInsts.map MinorInst.execSeqNum := by
    simp only [MinorThread.modifyInst, List.map_map]
    refine List.map_congr_left (fun i _ => ?_)
    dsimp only [Function.comp]
    split
    · exact hseq i
    · rfl
  have hmem : ∀ i ∈ (t.modifyInst seq f).inFlightInsts, ∃ j ∈ t.inFlightInsts, i = j ∨ i = f j := by
    intro i hi
    obtain ⟨j, hj, rfl⟩ := mem_map.mp hi
    split
    · exact ⟨j, hj, .inr rfl⟩
    · exact ⟨j, hj, .inl rfl⟩
  refine ⟨hmap ▸ h.sorted, hmap ▸ h.bound, fun b => ?_, h.newest,
    fun b hb i hi hi' hlsq' hlt => ?_, fun i hi => ?_⟩
  · rw [show (t.modifyInst seq f).barriers = t.barriers from rfl, h.barriers b]
    refine or_congr_right ⟨fun ⟨i, hi, hb⟩ => ?_, fun ⟨i, hi, hb⟩ => ?_⟩
    · refine ⟨_, mem_map_of_mem hi, ?_⟩
      split
      · rw [hbarrier, hseq]
        exact hb
      · exact hb
    · obtain ⟨j, hj, rfl | rfl⟩ := hmem i hi
      · exact ⟨i, hj, hb⟩
      · exact ⟨j, hj, by rwa [hbarrier, hseq] at hb⟩
  · obtain ⟨j, hj, rfl | rfl⟩ := hmem i hi
    · exact h.waits b hb i hj hi' hlsq' hlt
    · rw [hseq] at hlt ⊢
      exact h.waits b hb j hj (href j ▸ hi') (hlsq j hlsq') hlt
  · obtain ⟨j, hj, rfl | rfl⟩ := hmem i hi
    · exact h.outside i hj
    · rw [hbuffer]
      exact h.outside j hj

theorem Inv.popFUMem (h : Inv slots t) (seq : Nat) : Inv slots (t.popFUMem seq) := by
  unfold MinorThread.popFUMem
  split
  · exact { h with }
  · exact h

theorem popHead_eq (inst : MinorInst) (t : MinorThread) : ∃ l, t.popHead inst =
    { t with inFlightInsts := t.inFlightInsts.tail, inFUMemInsts := l } := by
  unfold popHead popFUMem
  split
  · split
    · exact ⟨_, rfl⟩
    · exact ⟨_, rfl⟩
  · exact ⟨_, rfl⟩

section Head

variable {inst : MinorInst} {rest : List MinorInst}

theorem Inv.drop (h : Inv slots t) (hhead : t.inFlightInsts = inst :: rest)
    (hbarrier : inst.isMemBarrier = false) : Inv slots (t.popHead inst) := by
  obtain ⟨l, hl⟩ := popHead_eq inst t
  obtain ⟨hsorted, hbound, hbarriers, hnewest, hwaits, houtside⟩ := h
  rw [hhead] at hsorted hbound hbarriers hwaits houtside
  rw [hl, hhead]
  refine ⟨?_, fun n hn => hbound n ?_, fun b => ?_, hnewest,
    fun b hb i hi => hwaits b hb i (.tail _ hi),
    fun i hi => houtside i (.tail _ hi)⟩
  · exact hsorted.sublist (Sublist.append_left (sublist_cons_self _ _) _)
  · rcases mem_append.mp hn with hn | hn
    · exact mem_append_left _ hn
    · exact mem_append_right _ (.tail _ hn)
  · rw [show ({ t with inFlightInsts := rest, inFUMemInsts := l } : MinorThread).barriers =
      t.barriers
      from rfl, hbarriers b]
    simp [hbarrier]

/-- A barrier that is committed, or a store, goes to the end of the store buffer. -/
theorem Inv.toStoreBuffer (h : Inv slots t) (hhead : t.inFlightInsts = inst :: rest)
    (hseq : s.execSeqNum = inst.execSeqNum) (hbarrier : s.isBarrier = inst.isMemBarrier) :
    Inv (slots ++ [s]) (t.popHead inst) := by
  obtain ⟨l, hl⟩ := popHead_eq inst t
  obtain ⟨hsorted, hbound, hbarriers, hnewest, hwaits, houtside⟩ := h
  rw [hhead] at hsorted hbound hbarriers hwaits houtside
  rw [hl, hhead]
  have hline : (slots ++ [s]).map execSeqNum ++ rest.map MinorInst.execSeqNum =
      slots.map execSeqNum ++ (inst :: rest).map MinorInst.execSeqNum := by
    simp [hseq]
  refine ⟨hline ▸ hsorted, hline ▸ hbound, fun b => ?_, hnewest,
    fun b hb i hi => hwaits b hb i (.tail _ hi),
    fun i hi => houtside i (.tail _ hi)⟩
  rw [show ({ t with inFlightInsts := rest, inFUMemInsts := l } : MinorThread).barriers = t.barriers
    from rfl, hbarriers b]
  simp only [mem_append, mem_cons, not_mem_nil, or_false, tail_cons]
  constructor
  · rintro (⟨s', hs', hb⟩ | ⟨i, rfl | hi, hb⟩)
    · exact .inl ⟨s', .inl hs', hb⟩
    · exact .inl ⟨s, .inr rfl, hbarrier ▸ hb.1, hseq ▸ hb.2⟩
    · exact .inr ⟨i, hi, hb⟩
  · rintro (⟨s', hs' | rfl, hb⟩ | ⟨i, hi, hb⟩)
    · exact .inl ⟨s', hs', hb⟩
    · exact .inr ⟨inst, .inl rfl, hbarrier ▸ hb.1, hseq ▸ hb.2⟩
    · exact .inr ⟨i, .inr hi, hb⟩

end Head

/-- A barrier is cleared, the newest one when it is the only one. `slots` and `insts` are what is
left in the store buffer and in flight. -/
theorem Inv.clear (h : Inv slots t) (hb : b ∈ t.barriers)
    (honly : b = t.lastMemBarrier → t.barriers = {b})
    (hline : (slots'.map execSeqNum ++ insts'.map MinorInst.execSeqNum).Sublist
      (slots.map execSeqNum ++ t.inFlightInsts.map MinorInst.execSeqNum))
    (hinsts : ∀ i ∈ insts', i ∈ t.inFlightInsts)
    (hbarriers : ∀ c, c ≠ b → ((∃ s ∈ slots, s.isBarrier = true ∧ s.execSeqNum = c) ∨
        (∃ i ∈ t.inFlightInsts, i.isMemBarrier = true ∧ i.execSeqNum = c) ↔
      (∃ s ∈ slots', s.isBarrier = true ∧ s.execSeqNum = c) ∨
        ∃ i ∈ insts', i.isMemBarrier = true ∧ i.execSeqNum = c))
    (hgone : b ∉ slots'.map execSeqNum ++ insts'.map MinorInst.execSeqNum) :
    Inv slots' (clearMemBarrier b { t with inFlightInsts := insts', inFUMemInsts := l }) := by
  refine ⟨h.sorted.sublist hline, fun n hn => h.bound n (hline.subset hn), fun c => ?_, ?_, ?_,
    fun i hi => h.outside i (hinsts i hi)⟩
  · dsimp only [clearMemBarrier]
    rw [Finset.mem_erase]
    obtain rfl | hc := eq_or_ne c b
    · refine iff_of_false (fun hno => hno.1 rfl) (fun hno => hgone ?_)
      rcases hno with ⟨s, hs, -, rfl⟩ | ⟨i, hi, -, rfl⟩
      · exact mem_append_left _ (mem_map_of_mem hs)
      · exact mem_append_right _ (mem_map_of_mem hi)
    · rw [h.barriers c, ← hbarriers c hc]
      exact and_iff_right hc
  · rcases h.newest with ⟨hnone, -⟩ | ⟨hlast, hmax⟩
    · rw [hnone] at hb
      cases hb
    dsimp only [clearMemBarrier]
    by_cases heq : b = t.lastMemBarrier
    · left
      rw [honly heq, if_pos (heq.symm.le)]
      exact ⟨Finset.erase_singleton b, rfl⟩
    · right
      have hlt : b < t.lastMemBarrier := Nat.lt_of_le_of_ne (hmax b hb) heq
      rw [if_neg (not_le.mpr hlt)]
      exact ⟨Finset.mem_erase.mpr ⟨Ne.symm heq, hlast⟩,
        fun c hc => hmax c (Finset.mem_of_mem_erase hc)⟩
  · intro c hc i hi href hlsq hlt
    have hc' : c ∈ t.barriers := Finset.mem_of_mem_erase hc
    have hold := h.waits c hc' i (hinsts i hi) href hlsq hlt
    dsimp only [clearMemBarrier]
    split
    · omega
    · exact hold

theorem Inv.discard (h : Inv slots t) (hhead : t.inFlightInsts = inst :: rest)
    (hbarrier : inst.isMemBarrier = true)
    (honly : inst.execSeqNum = t.lastMemBarrier → t.barriers = {inst.execSeqNum}) :
    Inv slots ((t.popHead inst).clearMemBarrier inst.execSeqNum) := by
  obtain ⟨l, hl⟩ := popHead_eq inst t
  have hsorted := h.sorted
  rw [hhead] at hsorted
  have hb : inst.execSeqNum ∈ t.barriers :=
    (h.barriers _).mpr (.inr ⟨inst, by simp [hhead], hbarrier, rfl⟩)
  rw [hl, hhead]
  refine h.clear hb honly ?_ ?_ (fun c hc => ?_) ?_
  · rw [hhead]
    exact Sublist.append_left (sublist_cons_self _ _) _
  · intro i hi
    rw [hhead]
    exact .tail _ hi
  · rw [hhead]
    simp only [mem_cons, tail_cons, exists_eq_or_imp]
    refine or_congr_right ⟨fun hi => hi.resolve_left (fun hno => hc hno.2.symm), .inr⟩
  · rw [map_cons, pairwise_append] at hsorted
    rw [mem_append, not_or]
    constructor
    · intro hno
      exact absurd (hsorted.2.2 _ hno _ mem_cons_self) (Nat.lt_irrefl _)
    · intro hno
      exact absurd ((pairwise_cons.mp hsorted.2.1).1 _ hno) (Nat.lt_irrefl _)

/-- The barrier at the front of the store buffer is cleared: those that are older are gone. -/
theorem Inv.clearFront (h : Inv (s :: slots) t) (hbarrier : s.isBarrier = true) :
    Inv slots (t.clearMemBarrier s.execSeqNum) := by
  have hsorted := h.sorted
  rw [map_cons, cons_append, pairwise_cons] at hsorted
  have hb : s.execSeqNum ∈ t.barriers :=
    (h.barriers _).mpr (.inl ⟨s, .head _, hbarrier, rfl⟩)
  refine h.clear (l := t.inFUMemInsts) hb (fun hlast => ?_) (sublist_cons_self _ _)
    (fun i hi => hi) (fun c hc => ?_) (fun hno => ?_)
  · refine Finset.eq_singleton_iff_unique_mem.mpr ⟨hb, fun c hc => ?_⟩
    have hle : c ≤ s.execSeqNum := by
      rcases h.newest with ⟨hnone, -⟩ | ⟨-, hmax⟩
      · rw [hnone] at hb
        cases hb
      · exact hlast ▸ hmax c hc
    rcases (h.barriers c).mp hc with ⟨s', hs', -, rfl⟩ | ⟨i, hi, -, rfl⟩
    · rcases mem_cons.mp hs' with rfl | hs'
      · rfl
      · have := hsorted.1 _ (mem_append_left _ (mem_map_of_mem hs'))
        omega
    · have := hsorted.1 _ (mem_append_right _ (mem_map_of_mem hi))
      omega
  · simp only [mem_cons, exists_eq_or_imp]
    refine or_congr_left ⟨fun hs => hs.resolve_left (fun hno => hc hno.2.symm), .inr⟩
  · exact absurd (hsorted.1 _ hno) (lt_irrefl _)

theorem done_cases (tid seq : Nat) (s : StoreSlot) :
    (s.done tid seq = none ∧ s.isBarrier = false) ∨ ∃ s', s.done tid seq = some s' ∧
      s'.tid = s.tid ∧
      s'.execSeqNum = s.execSeqNum ∧ s'.isBarrier = s.isBarrier := by
  unfold done
  split
  · cases hbarrier : s.isBarrier with
    | true => exact .inr ⟨_, rfl, rfl, rfl, rfl⟩
    | false => exact .inl ⟨rfl, rfl⟩
  · exact .inr ⟨s, rfl, rfl, rfl, rfl⟩

theorem map_done_sublist (tid seq : Nat) (slots : List StoreSlot) :
    ((slots.filterMap (done tid seq)).map execSeqNum).Sublist
      (slots.map execSeqNum) := by
  induction slots with
  | nil => exact .slnil
  | cons s slots ih =>
    rcases done_cases tid seq s with ⟨hs, -⟩ | ⟨s', hs, -, hseq, -⟩
    · rw [filterMap_cons_none hs]
      exact ih.cons _
    · rw [filterMap_cons_some hs, map_cons, hseq]
      exact ih.cons_cons _

theorem exists_barrier_done (tid seq : Nat) (slots : List StoreSlot) (b : Nat) :
    (∃ s ∈ slots.filterMap (done tid seq), s.isBarrier = true ∧ s.execSeqNum = b) ↔
      ∃ s ∈ slots, s.isBarrier = true ∧ s.execSeqNum = b := by
  constructor
  · rintro ⟨s', hs', hb⟩
    obtain ⟨s, hs, hdone⟩ := mem_filterMap.mp hs'
    rcases done_cases tid seq s with ⟨hnone, -⟩ | ⟨s'', hsome, -, hseq, hbarrier⟩
    · rw [hnone] at hdone
      cases hdone
    · obtain rfl := some.inj (hsome.symm.trans hdone)
      exact ⟨s, hs, hbarrier ▸ hb.1, hseq ▸ hb.2⟩
  · rintro ⟨s, hs, hb⟩
    rcases done_cases tid seq s with ⟨-, hno⟩ | ⟨s', hsome, -, hseq, hbarrier⟩
    · rw [hno] at hb
      cases hb.1
    · exact ⟨s', mem_filterMap.mpr ⟨s, hs, hsome⟩, hbarrier ▸ hb.1, hseq ▸ hb.2⟩

theorem Inv.storeDone (h : Inv slots t) (tid seq : Nat) :
    Inv (slots.filterMap (done tid seq)) t := by
  have hline := Sublist.append_right (map_done_sublist tid seq slots)
    (t.inFlightInsts.map MinorInst.execSeqNum)
  refine ⟨h.sorted.sublist hline, fun n hn => h.bound n (hline.subset hn), fun b => ?_, h.newest,
    h.waits, h.outside⟩
  rw [h.barriers b, exists_barrier_done]

end MinorThread

namespace MinorExecute

variable {w w' : MinorExecute} {tid : Nat}

def slotsOf (tid : Nat) (w : MinorExecute) : List StoreSlot := w.slots.filter (fun s => s.tid = tid)

def Inv (w : MinorExecute) : Prop := ∀ tid, MinorThread.Inv (w.slotsOf tid) (w.threads tid)

theorem Inv.modifyThread (h : Inv w) (hf : MinorThread.Inv (w.slotsOf tid) (f (w.threads tid))) :
    Inv (w.modifyThread tid f) := by
  intro tid'
  obtain rfl | heq := eq_or_ne tid' tid
  · simpa [MinorExecute.modifyThread, slotsOf] using hf
  · simpa [MinorExecute.modifyThread, slotsOf, heq] using h tid'

theorem Inv.pushSlot (h : Inv w)
    (hf : MinorThread.Inv (w.slotsOf s.tid ++ [s]) (f (w.threads s.tid))) :
    Inv ((w.pushSlot s).modifyThread s.tid f) := by
  intro tid'
  obtain rfl | heq := eq_or_ne tid' s.tid
  · simpa [MinorExecute.modifyThread, MinorExecute.pushSlot, slotsOf] using hf
  · have hne : s.tid ≠ tid' := Ne.symm heq
    simpa [MinorExecute.modifyThread, MinorExecute.pushSlot, slotsOf, heq, hne] using h tid'

section Head

variable {inst : MinorInst} {rest : List MinorInst}

section

variable (h : Inv w) (hhead : (w.threads tid).inFlightInsts = inst :: rest)
include h hhead

theorem Inv.commit (hbuffer : inst.inStoreBuffer = false) : Inv (w.finish tid inst true) := by
  unfold finish
  cases hbarrier : inst.isMemBarrier with
  | false => exact h.modifyThread ((h tid).drop hhead hbarrier)
  | true =>
    simp only [if_true, completeMemBarrierInst, hbuffer, Bool.false_eq_true, if_false]
    exact h.pushSlot (s := ⟨tid, inst.execSeqNum, true, true⟩)
      ((h tid).toStoreBuffer hhead rfl hbarrier.symm)

theorem Inv.discard
    (honly : inst.isMemBarrier = true → inst.execSeqNum = (w.threads tid).lastMemBarrier →
      (w.threads tid).barriers = {inst.execSeqNum}) : Inv (w.finish tid inst false) := by
  unfold finish
  cases hbarrier : inst.isMemBarrier with
  | false => exact h.modifyThread ((h tid).drop hhead hbarrier)
  | true =>
    have hcleared := (h tid).discard hhead hbarrier (honly hbarrier)
    have hboth := h.modifyThread (f := fun t =>
      (t.popHead inst).clearMemBarrier inst.execSeqNum) hcleared
    simpa [completeMemBarrierInst, MinorExecute.modifyThread] using hboth

theorem Inv.toStoreBuffer :
    Inv ((w.pushSlot ⟨tid, inst.execSeqNum, inst.isMemBarrier, false⟩).finish tid
      { inst with inStoreBuffer := true } true) := by
  have hpushed := h.pushSlot (s := ⟨tid, inst.execSeqNum, inst.isMemBarrier, false⟩)
    (f := MinorThread.popHead inst) ((h tid).toStoreBuffer hhead rfl rfl)
  unfold finish completeMemBarrierInst
  simp only [if_true, ite_self]
  exact hpushed

end

end Head

theorem Inv.storeDone (h : Inv w) (tid seq : Nat) : Inv (w.storeDone tid seq) := by
  intro tid'
  have hslots : (w.storeDone tid seq).slotsOf tid' =
      (w.slotsOf tid').filterMap (done tid seq) := by
    unfold slotsOf MinorExecute.storeDone
    induction w.slots with
    | nil => rfl
    | cons s slots ih =>
      rcases MinorThread.done_cases tid seq s with ⟨hs, -⟩ | ⟨s', hs, htid, -⟩
      · rw [filterMap_cons_none hs, ih]
        by_cases heq : s.tid = tid'
        · rw [filter_cons_of_pos (by simpa using heq), filterMap_cons_none hs]
        · rw [filter_cons_of_neg (by simpa using heq)]
      rw [filterMap_cons_some hs]
      by_cases heq : s.tid = tid'
      · rw [filter_cons_of_pos (by simpa [htid] using heq),
          filter_cons_of_pos (by simpa using heq), filterMap_cons_some hs, ih]
      · rw [filter_cons_of_neg (by simpa [htid] using heq),
          filter_cons_of_neg (by simpa using heq), ih]
  rw [hslots]
  exact (h tid').storeDone tid seq

theorem Inv.clearBarrier (h : Inv w) (hw' : w.clearBarrier = some w') : Inv w' := by
  unfold MinorExecute.clearBarrier at hw'
  split at hw'
  · rename_i s slots hslots
    split at hw'
    · rename_i hfront
      obtain rfl := some.inj hw'
      have hbarrier : s.isBarrier = true := (Bool.and_eq_true_iff.mp hfront).2
      intro tid'
      have hold := h tid'
      obtain rfl | heq := eq_or_ne tid' s.tid
      · simp only [slotsOf, hslots, decide_true, filter_cons_of_pos] at hold
        simpa [MinorExecute.modifyThread, slotsOf] using hold.clearFront hbarrier
      · have hne : s.tid ≠ tid' := Ne.symm heq
        simpa [MinorExecute.modifyThread, slotsOf, hslots, heq, hne] using hold
    · cases hw'
  · cases hw'

theorem Inv.commitMemRef (h : Inv w) (hhead : (w.threads tid).inFlightInsts = inst :: rest)
    (outcome : MemOutcome)
    (honly : outcome = .fault → inst.isMemBarrier = true →
      inst.execSeqNum = (w.threads tid).lastMemBarrier →
      (w.threads tid).barriers = {inst.execSeqNum}) : Inv (w.commitMemRef tid inst outcome) := by
  cases outcome with
  | notCompleted => exact h
  | fault => exact h.discard hhead (honly rfl)
  | issued =>
    apply h.modifyThread
    apply MinorThread.Inv.popFUMem
    exact (h tid).modifyInst _ (fun _ => rfl) (fun _ => rfl) (fun _ => rfl)
      nofun (fun _ => rfl)

theorem Inv.commitEarly (h : Inv w) (seq : Nat) (outcome : MemOutcome) :
    Inv (w.commitEarly tid tid seq outcome) := by
  cases outcome with
  | notCompleted => exact h
  | fault =>
    apply h.modifyThread
    exact (h tid).modifyInst _ (fun _ => rfl) (fun _ => rfl) (fun _ => rfl) (fun _ hlsq => hlsq)
      (fun _ => rfl)
  | issued =>
    have hmarked : Inv (w.modifyThread tid (fun t =>
        t.modifyInst seq (fun i => { i with inLSQ := true }))) := by
      apply h.modifyThread
      exact (h tid).modifyInst _ (fun _ => rfl) (fun _ => rfl) (fun _ => rfl)
        nofun (fun _ => rfl)
    dsimp only [MinorExecute.commitEarly]
    rw [if_pos rfl]
    exact hmarked.modifyThread ((hmarked tid).popFUMem seq)

theorem Inv.step (h : Inv w) (hstep : (machine early).step w m w')
    (horderly : Orderly w m) : Inv w' := by
  change w.move early m = some w' at hstep
  cases m with
  | issue tid seq isMemRef isMemBarrier dependsOn =>
    simp only [move] at hstep
    split_ifs at hstep with hseq
    obtain ⟨t, ht, rfl⟩ := map_eq_some_iff.mp hstep
    apply h.modifyThread
    refine (h tid).issue hseq (fun hbarrier => ?_) ht
    subst hbarrier
    exact horderly
  | branch tid streamSeqNum =>
    obtain rfl := some.inj hstep
    apply h.modifyThread
    exact ⟨(h tid).sorted, (h tid).bound, (h tid).barriers, (h tid).newest, (h tid).waits,
      (h tid).outside⟩
  | discard tid =>
    simp only [move] at hstep
    split at hstep
    · rename_i inst rest hhead
      split_ifs at hstep
      obtain rfl := some.inj hstep
      exact h.discard hhead (horderly inst (by rw [hhead]; rfl))
    · cases hstep
  | response tid toStoreBuffer =>
    simp only [move] at hstep
    split at hstep
    · rename_i inst rest hhead
      split at hstep
      · split at hstep
        · obtain rfl := some.inj hstep
          exact h.toStoreBuffer hhead
        · obtain rfl := some.inj hstep
          exact h.commit hhead ((h tid).outside inst (by rw [hhead]; exact .head _))
      · cases hstep
    · cases hstep
  | commit tid =>
    simp only [move] at hstep
    split at hstep
    · rename_i inst rest hhead
      split_ifs at hstep
      obtain rfl := some.inj hstep
      exact h.commit hhead ((h tid).outside inst (by rw [hhead]; exact .head _))
    · cases hstep
  | commitMemRef tid outcome =>
    simp only [move] at hstep
    split at hstep
    · rename_i inst rest hhead
      split_ifs at hstep
      obtain rfl := some.inj hstep
      refine h.commitMemRef hhead outcome (fun hfault => ?_)
      subst hfault
      exact horderly inst (by rw [hhead]; rfl)
    · cases hstep
  | commitEarly tid owner seq outcome =>
    obtain rfl : owner = tid := horderly
    simp only [move] at hstep
    split at hstep
    · split_ifs at hstep
      obtain rfl := some.inj hstep
      exact h.commitEarly seq outcome
    · cases hstep
  | storeDone tid seq =>
    obtain rfl := some.inj hstep
    exact h.storeDone tid seq
  | clearBarrier => exact h.clearBarrier hstep

theorem inv_of_reachable (h : ((machine early).restrict Orderly).Reachable w) : Inv w := by
  refine h.invariant (fun w hw tid => ?_) (fun _ _ _ hw hstep => hw.step hstep.1 hstep.2)
  rw [show w = {} from hw]
  exact ⟨.nil, nofun, fun b => by simp [slotsOf], .inl ⟨rfl, rfl⟩,
    nofun, nofun⟩

/-- No memory reference is committed while an older barrier of its thread is in flight. -/
theorem memRef_waits_for_barriers {early : Bool} {m : Move} {tid seq : Nat}
    (h : ((machine early).restrict Orderly).Reachable w)
    (hstep : ((machine early).restrict Orderly).step w m w')
    (hcommits : w.commits m = some (tid, seq)) :
    ∀ b ∈ (w.threads tid).barriers, ¬b < seq := by
  have hinv := inv_of_reachable h
  obtain ⟨hmove, horderly⟩ := hstep
  change w.move early m = some w' at hmove
  intro b hb
  cases m with
  | commitMemRef tid' outcome =>
    simp only [move] at hmove
    split at hmove
    · rename_i inst rest hhead
      split_ifs at hmove with hfree
      simp only [Bool.and_eq_true, Bool.not_eq_true'] at hfree
      simp only [commits, hhead, head?_cons, map_some, Option.some.injEq,
        Prod.mk.injEq] at hcommits
      obtain ⟨rfl, rfl⟩ := hcommits
      exact (hinv tid').not_younger (by rw [hhead]; exact .head _) hfree.1.1.1 hfree.1.1.2
        hfree.2 hb
    · cases hmove
  | commitEarly tid' owner seq' outcome =>
    obtain rfl : owner = tid' := horderly
    obtain ⟨rfl, rfl⟩ := Prod.mk.inj (some.inj hcommits)
    simp only [move] at hmove
    split at hmove
    · rename_i head rest inst hhead hfind
      split_ifs at hmove with hfree
      obtain ⟨-, href, hlsq, -, -, -, hheld⟩ := hfree
      obtain rfl : inst.execSeqNum = seq' := by simpa using find?_some hfind
      exact (hinv owner).not_younger (mem_of_find?_eq_some hfind) href (by simpa using hlsq)
        (by simpa using hheld) hb
    · cases hmove
  | _ => cases hcommits

instance (w : MinorExecute) (m : Move) : Decidable (Orderly w m) := by
  rcases m with ⟨_, _, _, _ | _, _⟩ | _ | _ | _ | _ |
    ⟨_, _ | _ | _⟩ | _ | _ | _ <;> unfold Orderly <;>
    infer_instance

/-- A barrier has been cleared, and the memory reference that it held back is committed. -/
theorem memRef_waits_for_barriers_two : ∃ w w', ((machine true).restrict Orderly).Reachable w ∧
    ((machine true).restrict Orderly).step w (.commitMemRef 0 .issued) w' ∧
    ∀ b ∈ (w.threads 0).barriers, ¬b < 2 := by
  obtain ⟨w, w', hw, hstep, hcommits⟩ := Machine.exists_run_next
    (Machine.restrict_step (M := machine true) (f := move true) (fun _ _ _ h => h) Orderly)
    (.start rfl) [.issue 0 1 false true 0, .issue 0 2 true false 0, .commit 0, .clearBarrier,
      .issue 0 3 true true 0] (a := .commitMemRef 0 .issued)
    (P := fun w _ => w.commits (.commitMemRef 0 .issued) = some (0, 2)) (by decide)
  exact ⟨w, w', hw, hstep, memRef_waits_for_barriers hw hstep hcommits⟩

/-- Barrier 2 waits in the store buffer behind store 1. Once barrier 4 has been issued, memory
reference 3 is committed; and once barrier 4 has been discarded, memory reference 5 is. -/
theorem memRef_passes_barrier :
    (∃ w w', (machine false).Reachable w ∧ (machine false).step w (.commitMemRef 0 .issued) w' ∧
      w.commits (.commitMemRef 0 .issued) = some (0, 3) ∧ 2 ∈ (w.threads 0).barriers) ∧
    (∃ w w', (machine false).Reachable w ∧ (machine false).step w (.commitMemRef 0 .issued) w' ∧
      w.commits (.commitMemRef 0 .issued) = some (0, 5) ∧ 2 ∈ (w.threads 0).barriers) := by
  constructor
  · exact Machine.exists_run_next (f := move false) (fun _ _ _ h => h) (.start rfl)
      [.issue 0 1 true false 0, .commitMemRef 0 .issued, .response 0 true, .issue 0 2 false true 0,
        .commit 0, .issue 0 3 true false 0, .issue 0 4 false true 0] (by decide)
  · exact Machine.exists_run_next (f := move false) (fun _ _ _ h => h) (.start rfl)
      [.issue 0 1 true false 0, .commitMemRef 0 .issued, .response 0 true, .issue 0 2 false true 0,
        .commit 0, .issue 0 3 false false 0, .issue 0 4 false true 0, .commit 0, .branch 0 2,
        .discard 0, .issue 0 5 true false 0] (by decide)

end MinorExecute

end Gem5.Minor
