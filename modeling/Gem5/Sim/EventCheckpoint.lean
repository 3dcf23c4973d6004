import Gem5.Sim.EventRuns

namespace Gem5.Sim

open Lib EventQueue Flags Event Heap

/-- The entries of the checkpoint section of one event: names and the integers
printed for them. -/
abbrev Checkpoint := List (String × Int)

namespace Checkpoint

/-- `to_number` for a signed type of `w` bits: `stoll`, then the range check. -/
def toSigned (w : Nat) (r : Int) : Option Int :=
  if (-2 ^ 63 ≤ r ∧ r < 2 ^ 63) ∧ -2 ^ (w - 1) ≤ r ∧ r < 2 ^ (w - 1) then some r else none

/-- `to_number` for an unsigned type of `w` bits: `stoull`, which wraps a
negative number, then the range check. -/
def toUnsigned (w : Nat) (r : Int) : Option Nat :=
  if r.natAbs < 2 ^ 64 ∧ (r % 2 ^ 64).toNat < 2 ^ w then some (r % 2 ^ 64).toNat else none

def paramIn (cp : Checkpoint) (name : String) (parse : Int → Option α) : Res α :=
  match (cp.lookup name).bind parse with
  | some value => .ok value
  | none => .error (.unserialize name)

end Checkpoint

open Checkpoint

/-- `short _flags = flags`, so the flags are printed as a signed number. -/
def Event.serialize (e : Event) : Checkpoint :=
  [("_when", e.when), ("_priority", e.priority), ("_flags", e.flags.toInt)]

def Event.unserialize (cp : Checkpoint) (e : Event) : Res Event := do
  check (!e.scheduled)
  let when ← cp.paramIn "_when" (Checkpoint.toUnsigned 64)
  let priority ← cp.paramIn "_priority" (Checkpoint.toSigned 8)
  let flags ← cp.paramIn "_flags" (Checkpoint.toUnsigned 16)
  check e.initialized
  let flags := Flags.set (BitVec.ofNat 16 flags) .Initialized
  if flags.isSet .Scheduled && !flags.isSet .Squashed then
    return { e with when, priority, flags := flags.clear (.Squashed ||| .Scheduled) }
  else
    return { e with when, priority, flags }

def EventQueue.checkpointReschedule (s : State) (event : EventPtr) : Res State := do
  let e ← s.heap.deref event
  if Flags.isSet e.flags .Scheduled then insert s event else return s

def EventQueue.unserializeEvent (s : State) (event : EventPtr) (cp : Checkpoint) : Res State := do
  let e ← s.heap.deref event
  let e ← e.unserialize cp
  let s ← modify s event (fun _ => e)
  checkpointReschedule s event

def State.OnQueue (s : State) (p : EventPtr) : Prop :=
  ∃ bs, Bins s.heap s.head bs ∧ p ∈ bs.flatten

/-- `t` holds at `p` what a checkpoint of `e` should restore: an event that was
waiting to be processed waits again, any other does not. -/
structure Restored (e : Event) (t : State) (p : EventPtr) : Prop where
  placed : (t.OnQueue p ∧ t.heap.key p = e.key) ↔ (e.scheduled = true ∧ e.squashed = false)
  flagged : t.heap.isScheduled p = true ↔ t.OnQueue p

theorem toSigned_of_mem (hw : w ≤ 64) (hl : -2 ^ (w - 1) ≤ r)
    (hu : r < 2 ^ (w - 1)) : toSigned w r = some r := by
  have hpow : (2 : Int) ^ (w - 1) ≤ 2 ^ 63 := pow_le_pow_right₀ (by decide) (by omega)
  simp only [toSigned]
  rw [if_pos ⟨⟨by omega, by omega⟩, hl, hu⟩]

theorem toUnsigned_of_lt {w n : Nat} (hw : w ≤ 64) (hn : n < 2 ^ w) :
    toUnsigned w n = some n := by
  have hpow : 2 ^ w ≤ 2 ^ 64 := Nat.pow_le_pow_right (by decide) hw
  have hmod : ((n : Int) % 2 ^ 64).toNat = n := by omega
  simp only [toUnsigned, hmod]
  rw [if_pos ⟨by omega, hn⟩]

namespace Flags

/-- The highest bit of an initialized event's flags is clear, so they are
printed as they are. -/
theorem toInt_of_initialized (h : f &&& InitMask = Initialized) : f.toInt = f.toNat := by
  have hmsb : f.msb = false := by
    have hb : (f.msb && InitMask.msb) = Initialized.msb := by rw [← BitVec.msb_and, h]
    rw [show InitMask.msb = true by decide, show Initialized.msb = false by decide] at hb
    simpa using hb
  exact BitVec.toInt_eq_toNat_of_msb hmsb

theorem set_initialized (h : f &&& InitMask = Initialized) : f.set Initialized = f := by
  unfold set
  rw [← h]
  ext i hi
  simp only [BitVec.getElem_or, BitVec.getElem_and]
  cases f[i] <;> rfl

end Flags

/-- The flags an event gets back from its own checkpoint. -/
def Event.restoredFlags (e : Event) : Flags :=
  if e.scheduled && !e.squashed then e.flags.clear (.Squashed ||| .Scheduled) else e.flags

theorem unserialize_serialize {e₀ e : Event} (hs : e₀.scheduled = false)
    (hi₀ : e₀.initialized = true) (hi : e.initialized = true) (hw : e.when < 2 ^ 64)
    (hl : -128 ≤ e.priority) (hu : e.priority < 128) :
    e₀.unserialize e.serialize = .ok { e₀ with
      when := e.when, priority := e.priority, flags := e.restoredFlags } := by
  have hmask : e.flags &&& .InitMask = .Initialized := by
    simpa [initialized] using hi
  have hflags : toUnsigned 16 e.flags.toInt = some e.flags.toNat := by
    rw [toInt_of_initialized hmask]
    exact toUnsigned_of_lt (by decide) e.flags.isLt
  have hpri : toSigned 8 e.priority = some e.priority :=
    toSigned_of_mem (by decide) (by simpa using hl) (by simpa using hu)
  have hwhen : toUnsigned 64 e.when = some e.when := toUnsigned_of_lt (le_rfl) hw
  unfold unserialize serialize paramIn
  simp [hs, hi₀, check, hflags, hpri, hwhen, set_initialized hmask, List.lookup]
  unfold restoredFlags scheduled squashed
  split <;> simp_all

theorem State.not_onQueue {s : State} (h : s.head = none) (p : EventPtr) : ¬s.OnQueue p := by
  rintro ⟨bs, hb, hp⟩
  rw [h] at hb
  cases hb
  cases hp

theorem checkpointReschedule_spec {s : State} {p : EventPtr} {e : Event} (hh : s.head = none)
    (hp : s.heap.get p = some e) :
    ∃ t, checkpointReschedule s p = .ok t ∧ t.heap.isScheduled p = e.scheduled ∧
      t.heap.key p = e.key ∧ (t.OnQueue p ↔ e.scheduled = true) := by
  cases hs : isSet e.flags .Scheduled with
  | true =>
    have hins : checkpointReschedule s p = .ok { s with
        heap := s.heap.set p { e with nextBin := none, nextInBin := none }, head := some p } := by
      simp [EventQueue.checkpointReschedule, EventQueue.insert, insertBefore, hh, hs,
        deref_of_get hp]
    have hget := get_set_self s.heap p { e with nextBin := none, nextInBin := none }
    refine ⟨_, hins, ?_, ?_, fun _ => hs, fun _ => ⟨[[p]], .cons _ hget .nil .nil, by simp⟩⟩
    · rw [isScheduled_of_get hget]
      rfl
    · rw [key_of_get hget]
      rfl
  | false =>
    have hskip : checkpointReschedule s p = .ok s := by
      simp [checkpointReschedule, hs, deref_of_get hp]
    refine ⟨s, hskip, isScheduled_of_get hp, key_of_get hp, ?_, ?_⟩
    · exact fun hq => absurd hq (State.not_onQueue hh p)
    · exact fun hs' => absurd (hs.symm.trans hs') Bool.false_ne_true

/-- The flag that `unserialize` leaves is set only if the event was squashed. -/
theorem isSet_restoredFlags (e : Event) :
    e.restoredFlags.isSet .Scheduled = (e.scheduled && e.squashed) := by
  have hclear : isSet (e.flags.clear (.Squashed ||| .Scheduled)) .Scheduled = false := by
    have hsub : ~~~(Squashed ||| Scheduled) &&& Scheduled = 0 := by decide
    simp only [isSet, clear, BitVec.and_assoc, hsub]
    simp
  have hkeep : e.flags.isSet .Scheduled = e.scheduled := rfl
  unfold restoredFlags
  cases hs : e.scheduled <;> cases hq : e.squashed <;> simp [hclear, hkeep, hs]

/-- An event of a run, saved and read back into a fresh event on an empty queue,
comes back as it should exactly if it was not scheduled: `unserialize` clears
the flag that `checkpointReschedule` looks at, except on squashed events. -/
theorem restored_iff_not_scheduled {log : List (List Obs)} {src s : State} {q p : EventPtr}
    {e e₀ : Event} (r : queueMachine.Run log src) (hq : src.heap.get q = some e)
    (hw : e.when < 2 ^ 64) (hl : -128 ≤ e.priority) (hu : e.priority < 128) (hh : s.head = none)
    (hp : s.heap.get p = some e₀) (hs : e₀.scheduled = false) (hi : e₀.initialized = true) :
    ∃ t, EventQueue.unserializeEvent s p e.serialize = .ok t ∧
      (Restored e t p ↔ e.scheduled = false) := by
  obtain ⟨_, hc⟩ := run_settled r
  have hun := unserialize_serialize hs hi (hc.initialized q e hq) hw hl hu
  obtain ⟨t, ht, hflag, hkey, hon⟩ := checkpointReschedule_spec
    (s := { s with heap := s.heap.set p _ }) hh (get_set_self s.heap p { e₀ with
      when := e.when, priority := e.priority, flags := e.restoredFlags })
  have hflag' : t.heap.isScheduled p = (e.scheduled && e.squashed) :=
    hflag.trans (isSet_restoredFlags e)
  have hon' : t.OnQueue p ↔ (e.scheduled && e.squashed) = true :=
    hon.trans (Bool.eq_iff_iff.mp (isSet_restoredFlags e))
  refine ⟨t, ?_, fun hr => ?_, fun hns => ⟨?_, ?_⟩⟩
  · simp only [unserializeEvent, deref_of_get hp, hun, modify_eq hp, ok_bind]
    exact ht
  · have hplaced := hr.placed
    rw [hon', and_iff_left (show t.heap.key p = e.key from hkey)] at hplaced
    cases hs : e.scheduled <;> cases hq : e.squashed <;> simp [hs, hq] at hplaced ⊢
  · simp [hon', hns]
  · simp [hon', hflag', hns]

/-- A squashed event that is still scheduled is restored onto the queue. -/
theorem squashed_event_resurrected : ∃ src e s t,
    Op.applyAll [.construct 0 0, .schedule 0 5, .setFlags 0 .Squashed] (State.initial 0) =
      .ok src ∧ src.heap.get 0 = some e ∧ e.squashed = true ∧
    Op.applyAll [.construct 0 0] (State.initial 0) = .ok s ∧
    EventQueue.unserializeEvent s 0 e.serialize = .ok t ∧
      (Restored e t 0 ↔ e.scheduled = false) := by
  obtain ⟨src, e, hsrc, he, hsq, hw, hl, hu⟩ : ∃ src e,
      Op.applyAll [.construct 0 0, .schedule 0 5, .setFlags 0 .Squashed] (State.initial 0) =
        .ok src ∧ src.heap.get 0 = some e ∧ e.squashed = true ∧ e.when < 2 ^ 64 ∧
        -128 ≤ e.priority ∧ e.priority < 128 :=
    ⟨_, _, rfl, rfl, rfl, by decide, by decide, by decide⟩
  obtain ⟨s, e₀, hs, hh, hp, hns, hi⟩ : ∃ s e₀,
      Op.applyAll [.construct 0 0] (State.initial 0) = .ok s ∧ s.head = none ∧
        s.heap.get 0 = some e₀ ∧ e₀.scheduled = false ∧ e₀.initialized = true :=
    ⟨_, _, rfl, rfl, rfl, rfl, rfl⟩
  obtain ⟨log, r⟩ := run_applyAll (.start ⟨rfl, rfl, rfl, rfl⟩) hsrc
  obtain ⟨t, ht, hiff⟩ := restored_iff_not_scheduled r he hw hl hu hh hp hns hi
  exact ⟨src, e, s, t, hsrc, he, hsq, hs, ht, hiff⟩

/-- An event scheduled for tick 5 and waiting there is not on the restored queue. -/
theorem scheduled_event_dropped : ∃ src e s t,
    Op.applyAll [.construct 0 0, .schedule 0 5] (State.initial 0) = .ok src ∧
    src.heap.get 0 = some e ∧ e.scheduled = true ∧ e.squashed = false ∧
    Op.applyAll [.construct 0 0] (State.initial 0) = .ok s ∧ s.head = none ∧
    EventQueue.unserializeEvent s 0 e.serialize = .ok t ∧ t.head = none ∧ ¬Restored e t 0 := by
  refine ⟨_, _, _, _, rfl, rfl, rfl, rfl, rfl, rfl, rfl, rfl, fun hr => ?_⟩
  exact State.not_onQueue rfl 0 (hr.placed.mpr ⟨rfl, rfl⟩).1

end Gem5.Sim
