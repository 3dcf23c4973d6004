import Mathlib

namespace Gem5.Cache

open List

/-! The load-locks of one cache block. -/

/-- What the block reads of a request: the context and a non-empty range of bytes. -/
structure BlkReq where
  contextId : Nat
  paddr : Nat
  size : Nat
  size_pos : 0 < size
deriving DecidableEq

def BlkReq.high (req : BlkReq) : Nat := req.paddr + req.size - 1

structure Lock where
  contextId : Nat
  lowAddr : Nat
  highAddr : Nat
deriving DecidableEq

namespace Lock

def ofReq (req : BlkReq) : Lock := ⟨req.contextId, req.paddr, req.high⟩

def matchesReq (l : Lock) (req : BlkReq) : Bool :=
  l.contextId = req.contextId ∧ l.lowAddr ≤ req.paddr ∧ req.high ≤ l.highAddr

def intersects (l : Lock) (req : BlkReq) : Bool :=
  req.paddr ≤ l.highAddr ∧ l.lowAddr ≤ req.high

variable {req : BlkReq} {l : Lock}

theorem matchesReq_iff : l.matchesReq req = true ↔
    l.contextId = req.contextId ∧ l.lowAddr ≤ req.paddr ∧ req.high ≤ l.highAddr :=
      decide_eq_true_iff

theorem intersects_iff : l.intersects req = true ↔
    req.paddr ≤ l.highAddr ∧ l.lowAddr ≤ req.high := decide_eq_true_iff

end Lock

def trackLoadLocked (lockList : List Lock) (req : BlkReq) : List Lock :=
  .ofReq req :: lockList.filter (fun l => !l.intersects req)

def clearLoadLocks (lockList : List Lock) (req : BlkReq) : List Lock :=
  lockList.filter (fun l => !(l.intersects req && l.contextId != req.contextId))

def checkWrite (lockList : List Lock) (isLLSC : Bool) (req : BlkReq) : Bool × List Lock :=
  if !isLLSC && lockList.isEmpty then (true, lockList)
  else if isLLSC then
    (lockList.any (·.matchesReq req), clearLoadLocks (lockList.eraseP (·.matchesReq req)) req)
  else (true, clearLoadLocks lockList req)

inductive BlkOp
  | loadLocked (req : BlkReq)
  | write (isLLSC : Bool) (req : BlkReq)
  | invalidate
deriving DecidableEq

def BlkOp.apply (lockList : List Lock) : BlkOp → List Lock
  | .loadLocked req => trackLoadLocked lockList req
  | .write isLLSC req => (checkWrite lockList isLLSC req).2
  | .invalidate => []

def locksAfter : List BlkOp → List Lock
  | [] => []
  | op :: log => op.apply (locksAfter log)

/-- An operation that leaves a lock alone. A store-conditional counts as a write whether it succeeds
or not, and inside the range it uses up the context's own lock. -/
def Spares (l : Lock) : BlkOp → Prop
  | .loadLocked req => l.intersects req = false
  | .write isLLSC req =>
    if req.contextId = l.contextId then isLLSC = true → l.matchesReq req = false
    else l.intersects req = false
  | .invalidate => False

theorem checkWrite_locks (lockList : List Lock) (isLLSC : Bool) (req : BlkReq) :
    (checkWrite lockList isLLSC req).2 =
      clearLoadLocks (if isLLSC then lockList.eraseP (·.matchesReq req) else lockList) req := by
  cases isLLSC with
  | true => rfl
  | false => cases lockList <;> rfl

/-- No range lies within two locks of a block. -/
def Apart (lockList : List Lock) : Prop :=
  lockList.Pairwise (fun l m => ∀ req : BlkReq,
    ¬ (l.matchesReq req = true ∧ m.matchesReq req = true))

variable {lockList : List Lock}

theorem apart_apply (h : Apart lockList) (op : BlkOp) : Apart (op.apply lockList) := by
  cases op with
  | loadLocked ll =>
    refine pairwise_cons.mpr ⟨fun l hl req hreq => ?_, h.filter _⟩
    have hkept := (mem_filter.mp hl).2
    have hsize := req.size_pos
    rw [Bool.not_eq_true', ← Bool.not_eq_true, Lock.intersects_iff] at hkept
    rw [Lock.matchesReq_iff, Lock.matchesReq_iff] at hreq
    simp only [Lock.ofReq, BlkReq.high] at hreq hkept
    omega
  | write isLLSC req =>
    rw [BlkOp.apply, checkWrite_locks]
    refine List.Pairwise.filter _ ?_
    split
    · exact h.sublist eraseP_sublist
    · exact h
  | invalidate => exact .nil

theorem apart_locksAfter (log : List BlkOp) : Apart (locksAfter log) := by
  induction log with
  | nil => exact .nil
  | cons op log ih => exact apart_apply ih op

/-- The lock that a store-conditional matches is the only one, so no second one stays behind. -/
theorem mem_eraseP_matches (h : Apart lockList) :
    l ∈ lockList.eraseP (·.matchesReq req) ↔ l ∈ lockList ∧ l.matchesReq req = false := by
  induction lockList with
  | nil => simp
  | cons m rest ih =>
    obtain ⟨hm, hrest⟩ := pairwise_cons.mp h
    cases hmatch : m.matchesReq req with
    | true =>
      simp only [eraseP_cons, hmatch, cond_true, mem_cons]
      constructor
      · intro hl
        exact ⟨.inr hl, by simpa [hmatch] using hm l hl req⟩
      · rintro ⟨rfl | hl, hno⟩
        · rw [hmatch] at hno
          cases hno
        · exact hl
    | false =>
      simp only [eraseP_cons, hmatch, cond_false, mem_cons, ih hrest]
      constructor
      · rintro (rfl | ⟨hl, hno⟩)
        · exact ⟨.inl rfl, hmatch⟩
        · exact ⟨.inr hl, hno⟩
      · rintro ⟨rfl | hl, hno⟩
        · exact .inl rfl
        · exact .inr ⟨hl, hno⟩

/-- A lock is there after an operation if the operation set it, or found it and spared it. -/
theorem mem_apply (h : Apart lockList) (op : BlkOp) (l : Lock) : l ∈ op.apply lockList ↔
      (∃ ll, op = .loadLocked ll ∧ l = .ofReq ll) ∨ l ∈ lockList ∧ Spares l op := by
  cases op with
  | loadLocked req => simp [BlkOp.apply, trackLoadLocked, Spares]
  | write isLLSC req =>
    have herase : l ∈ (if isLLSC then lockList.eraseP (·.matchesReq req) else lockList) ↔
        l ∈ lockList ∧ (isLLSC = true → l.matchesReq req = false) := by
      cases isLLSC with
      | true => simpa using mem_eraseP_matches h
      | false => simp
    rw [BlkOp.apply, checkWrite_locks, clearLoadLocks, mem_filter, herase]
    by_cases hctx : req.contextId = l.contextId
    · simp [Spares, hctx]
    · have hno : l.matchesReq req = false := by simp [Lock.matchesReq, Ne.symm hctx]
      simp [Spares, hctx, Ne.symm hctx, hno]
  | invalidate => simp [BlkOp.apply, Spares]

theorem mem_locksAfter (log : List BlkOp) (l : Lock) :
    l ∈ locksAfter log ↔ ∃ since ll before, log = since ++ .loadLocked ll :: before ∧
      l = .ofReq ll ∧
      ∀ op ∈ since, Spares l op := by
  induction log with
  | nil => simp [locksAfter]
  | cons op log ih =>
    rw [locksAfter, mem_apply (apart_locksAfter log), ih]
    constructor
    · rintro (⟨ll, rfl, rfl⟩ | ⟨⟨since, ll, before, rfl, rfl, hall⟩, hop⟩)
      · exact ⟨[], ll, log, rfl, rfl, by simp⟩
      · exact ⟨op :: since, ll, before, rfl, rfl, forall_mem_cons.mpr ⟨hop, hall⟩⟩
    · rintro ⟨_ | ⟨first, since⟩, ll, before, heq, rfl, hall⟩
      · exact .inl ⟨ll, (List.cons.inj heq).1, rfl⟩
      · obtain ⟨rfl, rfl⟩ := List.cons.inj heq
        obtain ⟨hop, hall⟩ := forall_mem_cons.mp hall
        exact .inr ⟨⟨since, ll, before, rfl, rfl, hall⟩, hop⟩

/-- A store-conditional succeeds exactly if a load-locked of its context covers it whose lock every
operation since has spared. -/
theorem storeCond_succeeds_iff (log : List BlkOp) (req : BlkReq) :
    (checkWrite (locksAfter log) true req).1 = true ↔
      ∃ since ll before, log = since ++ .loadLocked ll :: before ∧
        (Lock.ofReq ll).matchesReq req = true ∧ ∀ op ∈ since, Spares (.ofReq ll) op := by
  have hany : (checkWrite (locksAfter log) true req).1 = (locksAfter log).any
      (·.matchesReq req) := rfl
  rw [hany, any_eq_true]
  constructor
  · rintro ⟨l, hl, hmatch⟩
    obtain ⟨since, ll, before, hlog, rfl, hall⟩ := (mem_locksAfter log l).mp hl
    exact ⟨since, ll, before, hlog, hmatch, hall⟩
  · rintro ⟨since, ll, before, hlog, hmatch, hall⟩
    exact ⟨.ofReq ll, (mem_locksAfter log _).mpr ⟨since, ll, before, hlog, rfl, hall⟩, hmatch⟩

/-- A store-conditional that fails takes another context's reservation away, and a load-locked takes
away an earlier one of its own context. -/
theorem reservation_lost : let ll (c size : Nat) : BlkReq := ⟨c, 0, size + 1, Nat.succ_pos _⟩
    (checkWrite (locksAfter [.loadLocked (ll 0 7)]) true (ll 0 7)).1 = true ∧
    (checkWrite (locksAfter [.loadLocked (ll 0 7)]) true (ll 1 7)).1 = false ∧
    (checkWrite (locksAfter [.write true (ll 1 7), .loadLocked (ll 0 7)]) true (ll 0 7)).1 = false ∧
    (checkWrite (locksAfter [.loadLocked (ll 0 3), .loadLocked (ll 0 7)]) true (ll 0 7)).1 =
      false := by
  decide

end Gem5.Cache
