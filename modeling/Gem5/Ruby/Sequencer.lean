import Gem5.Lib.Transition
import Gem5.Mem.FunctionalAccess

namespace Gem5.Ruby

open Lib

/-! Load-linked and store-conditional at a sequencer: the lock of a cache entry, and the data that
completed requests write to it. -/

inductive RubyRequestType
  | LD
  | IFETCH
  | ST
  | ATOMIC
  | RMWRead
  | RMWWrite
  | LoadLinked
  | StoreConditional
  | LockedRMWRead
  | LockedRMWWrite
  | FLUSH
  deriving DecidableEq, Repr

namespace RubyRequestType

/-- The types that `writeCallback` completes; the others are completed by `readCallback`. -/
def isWriteRequest : RubyRequestType → Bool
  | .LD | .IFETCH => false
  | _ => true

def readsData : RubyRequestType → Bool
  | .LD | .IFETCH | .RMWRead | .LockedRMWRead | .LoadLinked => true
  | _ => false

end RubyRequestType

/-- A request with its packet: `size` bytes of `data` at `offset` in the block. A swap reads the
block first, and writes it as a store does. -/
structure SequencerRequest where
  type : RubyRequestType
  isFlush : Bool := false
  offset : Nat
  size : Nat
  data : Nat → UInt8

/-- An entry of the data cache. No context is `-1`. -/
structure AbstractCacheEntry where
  locked : Int := -1
  dataBlk : Nat → UInt8

namespace AbstractCacheEntry

def isLocked (e : AbstractCacheEntry) (context : Nat) : Bool := e.locked == context

def setLocked (e : AbstractCacheEntry) (context : Nat) : AbstractCacheEntry :=
  { e with locked := context }

def clearLocked (e : AbstractCacheEntry) : AbstractCacheEntry := { e with locked := -1 }

end AbstractCacheEntry

structure SequencerConfig where
  version : Nat
  runningGarnetStandalone : Bool := false
  warmupEnabled : Bool := false

namespace Sequencer

variable (cfg : SequencerConfig)

def setData (block : Nat → UInt8) (request : SequencerRequest) : Nat → UInt8 :=
  Mem.memcpy block request.offset request.data 0 request.size

def invalidateSC (e : AbstractCacheEntry) : AbstractCacheEntry :=
  if e.isLocked cfg.version then e.clearLocked else e

section

variable (request : SequencerRequest)
include request

/-- Whether the request succeeds, the extra data that is set, and the entry afterwards. -/
def handleLlsc (e : AbstractCacheEntry) : Bool × Option Nat × AbstractCacheEntry :=
  if request.type = .StoreConditional then
    if e.isLocked cfg.version then (true, some 1, e.clearLocked)
    else (false, some 0, e.clearLocked)
  else if request.type = .LoadLinked then (true, none, e.setLocked cfg.version)
  else if e.isLocked cfg.version then (true, none, e.clearLocked)
  else (true, none, e)

/-- The block after the request; whether a store-conditional has succeeded is only printed. -/
def hitCallback (block : Nat → UInt8) (_llscSuccess : Bool) : Nat → UInt8 :=
  if cfg.warmupEnabled then setData block request
  else if request.isFlush then block
  else if request.type.readsData then block
  else setData block request

/-- The extra data, and the entry with its block, for a request to a block that is cached. -/
def writeCallback (e : AbstractCacheEntry) : Option Nat × AbstractCacheEntry :=
  let (success, extraData, e) :=
    if cfg.runningGarnetStandalone then (true, none, e) else handleLlsc cfg request e
  (extraData, { e with dataBlk := hitCallback cfg request e.dataBlk success })

def readCallback (e : AbstractCacheEntry) : AbstractCacheEntry :=
  { e with dataBlk := hitCallback cfg request e.dataBlk true }

end

/-! Runs. -/

inductive Event
  | writeCallback (request : SequencerRequest)
  | readCallback (request : SequencerRequest)
  | invalidateSC
  | losePermission
  | deallocate
  | allocate (dataBlk : Nat → UInt8)

/-- One line of the data cache, and what has happened to it. -/
structure Line where
  entry : Option AbstractCacheEntry
  log : List Event

/-- A block that is not cached has no lock. Requests to it, and an `invalidateSC`, change nothing
here. -/
def apply (l : Line) (ev : Event) : Option Line :=
  match ev, l.entry with
  | .writeCallback request, some e =>
    if request.type.isWriteRequest then
      some { entry := some (writeCallback cfg request e).2, log := l.log ++ [ev] }
    else none
  | .writeCallback request, none =>
    if request.type.isWriteRequest then some { l with log := l.log ++ [ev] } else none
  | .readCallback request, some e =>
    if request.type.isWriteRequest then none
    else some { entry := some (readCallback cfg request e), log := l.log ++ [ev] }
  | .readCallback request, none =>
    if request.type.isWriteRequest then none else some { l with log := l.log ++ [ev] }
  | .invalidateSC, some e => some { entry := some (invalidateSC cfg e), log := l.log ++ [ev] }
  | .invalidateSC, none => some { l with log := l.log ++ [ev] }
  | .losePermission, some e => some { entry := some e.clearLocked, log := l.log ++ [ev] }
  | .losePermission, none => none
  | .deallocate, some _ => some { entry := none, log := l.log ++ [ev] }
  | .deallocate, none => none
  | .allocate dataBlk, none => some { entry := some { dataBlk }, log := l.log ++ [ev] }
  | .allocate _, some _ => none

def machine : Machine Line Event where
  init l := l.entry = none ∧ l.log = []
  step l ev l' := apply cfg l ev = some l'

/-- What keeps the lock of a load-linked. -/
def KeepsLock : Event → Prop
  | .writeCallback request => request.type = .LoadLinked
  | .readCallback _ => True
  | _ => False

/-- A load-linked has completed, and since then the entry has neither been unlocked nor
deallocated. -/
def Linked (log : List Event) : Prop :=
  ∃ pre request rest, log = pre ++ .writeCallback request :: rest ∧
    request.type = .LoadLinked ∧ ∀ ev ∈ rest, KeepsLock ev

variable {cfg} {l l' : Line}

theorem Linked.keep (h : Linked log) (hev : KeepsLock ev) : Linked (log ++ [ev]) := by
  obtain ⟨pre, request, rest, rfl, htype, hrest⟩ := h
  refine ⟨pre, request, rest ++ [ev], by simp, htype, fun ev' hmem => ?_⟩
  rcases List.mem_append.mp hmem with hmem | hmem
  · exact hrest ev' hmem
  · rw [List.mem_singleton.mp hmem]
    exact hev

theorem Linked.now (log : List Event) (htype : request.type = .LoadLinked) :
    Linked (log ++ [.writeCallback request]) :=
  ⟨log, request, [], rfl, htype, List.forall_mem_nil _⟩

/-- An entry that is locked has been linked. -/
def LockedLinked (cfg : SequencerConfig) (l : Line) : Prop :=
  ∀ e, l.entry = some e → e.isLocked cfg.version = true →
    cfg.runningGarnetStandalone = false ∧ Linked l.log

theorem isLocked_of_locked {e : AbstractCacheEntry} {version : Nat} (h : e.locked = -1) :
    e.isLocked version = false := by
  unfold AbstractCacheEntry.isLocked
  rw [h, beq_eq_false_iff_ne]
  exact nofun

section

variable (request : SequencerRequest) (e : AbstractCacheEntry)
include request e

theorem handleLlsc_locked : (handleLlsc cfg request e).2.2.isLocked cfg.version =
      decide (request.type = .LoadLinked) := by
  have hclear : e.clearLocked.isLocked cfg.version = false := isLocked_of_locked rfl
  have hset : (e.setLocked cfg.version).isLocked cfg.version = true := beq_self_eq_true _
  unfold handleLlsc
  by_cases hsc : request.type = .StoreConditional
  · rw [if_pos hsc, hsc]
    split <;> exact hclear
  rw [if_neg hsc]
  by_cases hll : request.type = .LoadLinked
  · rw [if_pos hll, hll]
    exact hset
  · rw [if_neg hll, decide_eq_false hll]
    split_ifs with hno
    · exact hclear
    · exact eq_false_of_ne_true hno

theorem writeCallback_eq : writeCallback cfg request e = if cfg.runningGarnetStandalone then
        (none, { e with dataBlk := hitCallback cfg request e.dataBlk true })
      else ((handleLlsc cfg request e).2.1, { (handleLlsc cfg request e).2.2 with
        dataBlk := hitCallback cfg request (handleLlsc cfg request e).2.2.dataBlk
          (handleLlsc cfg request e).1 }) := by
  unfold writeCallback
  cases cfg.runningGarnetStandalone <;> rfl

theorem writeCallback_locked : (writeCallback cfg request e).2.isLocked cfg.version =
      if cfg.runningGarnetStandalone then e.isLocked cfg.version
      else decide (request.type = .LoadLinked) := by
  rw [writeCallback_eq]
  split
  · rfl
  · exact handleLlsc_locked request e

end

theorem LockedLinked.step (h : LockedLinked cfg l) (hstep : apply cfg l ev = some l') :
    LockedLinked cfg l' := by
  intro e he hlocked
  unfold apply at hstep
  split at hstep
  · rename_i request e₀ hentry
    split_ifs at hstep
    cases hstep
    cases he
    rw [writeCallback_locked] at hlocked
    split_ifs at hlocked with hgarnet
    · have hno := (h e₀ hentry hlocked).1
      rw [hgarnet] at hno
      cases hno
    · exact ⟨eq_false_of_ne_true hgarnet, .now _ (of_decide_eq_true hlocked)⟩
  · rename_i hentry
    split_ifs at hstep
    cases hstep
    cases hentry.symm.trans he
  · rename_i request e₀ hentry
    split_ifs at hstep
    cases hstep
    cases he
    exact (h e₀ hentry hlocked).imp_right (fun hl => hl.keep trivial)
  · rename_i hentry
    split_ifs at hstep
    cases hstep
    cases hentry.symm.trans he
  · rename_i e₀ hentry
    cases hstep
    cases he
    unfold invalidateSC at hlocked
    split_ifs at hlocked with hno
    · rw [isLocked_of_locked rfl] at hlocked
      cases hlocked
    · exact absurd hlocked hno
  · rename_i hentry
    cases hstep
    cases hentry.symm.trans he
  · cases hstep
    cases he
    rw [isLocked_of_locked rfl] at hlocked
    cases hlocked
  · cases hstep
  · cases hstep
    cases he
  · cases hstep
  · cases hstep
    cases he
    rw [isLocked_of_locked rfl] at hlocked
    cases hlocked
  · cases hstep

theorem reachable_lockedLinked (h : (machine cfg).Reachable l) : LockedLinked cfg l := by
  refine h.invariant (fun l hl => ?_) (fun l ev l' hl hstep => hl.step hstep)
  intro e he
  rw [hl.1] at he
  cases he

/-! What a store-conditional reports, and what it writes. -/

/-- The packet's bytes are those of the block. -/
def SameBytes (request : SequencerRequest) (block : Nat → UInt8) : Prop :=
  ∀ i, i < request.size → request.data i = block (request.offset + i)

theorem setData_eq_iff : setData block request = block ↔ SameBytes request block := by
  unfold setData Mem.memcpy
  constructor
  · intro heq i hi
    have hat := congrFun heq (request.offset + i)
    rw [if_pos ⟨Nat.le_add_right _ _, by omega⟩, Nat.add_sub_cancel_left, Nat.zero_add] at hat
    exact hat
  · intro hsame
    funext x
    split_ifs with hin
    · rw [Nat.zero_add, hsame _ (by omega), Nat.add_sub_cancel' hin.1]
    · rfl

/-- The extra data of a store-conditional tells whether the entry was locked. -/
theorem writeCallback_extraData (hsc : request.type = .StoreConditional) :
    (writeCallback cfg request e).1 = if cfg.runningGarnetStandalone then none
      else if e.isLocked cfg.version then some 1 else some 0 := by
  rw [writeCallback_eq]
  split
  · rfl
  · unfold handleLlsc
    rw [if_pos hsc]
    split <;> rfl

theorem writeCallback_dataBlk (request : SequencerRequest) (e : AbstractCacheEntry) :
    (writeCallback cfg request e).2.dataBlk = hitCallback cfg request e.dataBlk true := by
  have hsame : (handleLlsc cfg request e).2.2.dataBlk = e.dataBlk := by
    unfold handleLlsc
    repeat' split
    all_goals rfl
  rw [writeCallback_eq]
  split
  · rfl
  · exact congrArg (hitCallback cfg request · _) hsame

/-- A store-conditional that reports success follows a load-linked, since which nothing has unlocked
the entry. One that reports failure leaves the block as it is exactly if it is a flush, or if the
bytes it has are those of the block. -/
theorem store_conditional_reports (h : (machine cfg).Reachable l) {e : AbstractCacheEntry}
    (he : l.entry = some e) {request : SequencerRequest} (hsc : request.type = .StoreConditional) :
    ((writeCallback cfg request e).1 = some 1 → Linked l.log) ∧
    ((writeCallback cfg request e).1 = some 0 →
      ((writeCallback cfg request e).2.dataBlk = e.dataBlk ↔
        cfg.warmupEnabled = false ∧ request.isFlush = true ∨ SameBytes request e.dataBlk)) := by
  rw [writeCallback_extraData hsc, writeCallback_dataBlk]
  constructor
  · intro hone
    split at hone
    · cases hone
    · split_ifs at hone with hlocked
      · exact (reachable_lockedLinked h e he hlocked).2
      · cases hone
  · intro _
    unfold hitCallback
    cases hwarm : cfg.warmupEnabled with
    | true => simp [setData_eq_iff]
    | false =>
      cases hflush : request.isFlush with
      | true => simp
      | false => simp [hsc, RubyRequestType.readsData, setData_eq_iff]

/-- A load-linked and a store-conditional. -/
theorem store_conditional_reports_success : ∃ l e, (machine { version := 0 }).Reachable l ∧
    l.entry = some e ∧ Linked l.log := by
  obtain ⟨l, hl, hP⟩ := Machine.exists_run (M := machine { version := 0 })
    (f := apply { version := 0 }) (fun _ _ _ hstep => hstep)
    (.start (s := { entry := none, log := [] }) ⟨rfl, rfl⟩)
    [.allocate (fun _ => 0),
      .writeCallback { type := .LoadLinked, offset := 0, size := 1, data := fun _ => 0 }]
    (P := fun l => l.entry.any (fun e => (writeCallback { version := 0 }
      { type := .StoreConditional, offset := 0, size := 1, data := fun _ => 1 } e).1 = some 1))
    (by decide)
  obtain ⟨e, he, hP⟩ := (Option.any_eq_true _ _).mp hP
  exact ⟨l, e, hl, he, (store_conditional_reports hl he rfl).1 (of_decide_eq_true hP)⟩

/-- A store-conditional without a load-linked reports failure, and writes its byte. -/
theorem failed_store_conditional_writes : ∃ l e, (machine { version := 0 }).Reachable l ∧
    l.entry = some e ∧
    (writeCallback { version := 0 }
      { type := .StoreConditional, offset := 0, size := 1, data := fun _ => 1 } e).1 = some 0 ∧
    e.dataBlk 0 = 0 ∧
    (writeCallback { version := 0 }
      { type := .StoreConditional, offset := 0, size := 1, data := fun _ => 1 }
      e).2.dataBlk 0 = 1 := by
  have hl : (machine { version := 0 }).Reachable
      { entry := some { dataBlk := fun _ => 0 }, log := [.allocate (fun _ => 0)] } :=
    Machine.Reachable.next
      (Machine.Reachable.start (s := { entry := none, log := [] }) ⟨rfl, rfl⟩)
      (show apply { version := 0 } _ (.allocate (fun _ => 0)) = some _ from rfl)
  exact ⟨_, _, hl, rfl, rfl, rfl, rfl⟩

end Sequencer

end Gem5.Ruby
