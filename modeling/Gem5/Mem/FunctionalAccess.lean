import Gem5.Lib.Transition

namespace Gem5.Mem

open Lib

/-! Functional accesses, which gather their bytes from the packets and blocks they meet. -/

/-- What `checkFunctional` asks of the command: a print request, a read (a swap is one too), a
write, or none of them. -/
inductive FunctionalCmd
  | print
  | read
  | write
  | other
  deriving DecidableEq, Repr

/-- A packet of a functional access. An empty `bytesValid` is `none`. -/
structure FuncPacket where
  cmd : FunctionalCmd
  addr : Nat
  size : Nat
  isSecure : Bool
  data : Nat → UInt8
  bytesValid : Option (Nat → Bool) := none

/-- What the packet is checked against: a range of addresses and its bytes. -/
structure CheckedRange where
  addr : Nat
  isSecure : Bool
  size : Nat
  data : Option (Nat → UInt8)

inductive FunctionalFault
  | printWithData
  | missedCase
  | badCommand
  deriving DecidableEq, Repr

def memcpy (dest : Nat → UInt8) (destOffset : Nat) (src : Nat → UInt8) (srcOffset n : Nat) :
    Nat → UInt8 :=
  fun i => if destOffset ≤ i ∧ i < destOffset + n then src (srcOffset + (i - destOffset))
    else dest i

namespace FuncPacket

def lastAddr (addr size : Nat) : Nat := addr + size - 1

section

variable (p : FuncPacket) (r : CheckedRange)
include p r

/-- No byte of the packet is in the range. -/
def Misses : Prop :=
  r.isSecure ≠ p.isSecure ∨ lastAddr r.addr r.size < p.addr ∨ lastAddr p.addr p.size < r.addr

instance : Decidable (Misses p r) :=
  inferInstanceAs (Decidable (_ ∨ _))

/-- The offset in the range, the offset in the packet and the number of bytes that are copied for a
range that does not cover the packet. -/
def partialOverlap : Except FunctionalFault (Nat × Nat × Nat) :=
  let funcStart := p.addr
  let funcEnd := lastAddr p.addr p.size
  let valStart := r.addr
  let valEnd := lastAddr r.addr r.size
  if valStart < funcStart ∧ valEnd ≤ funcEnd then
    .ok (funcStart - valStart, 0, valEnd - funcStart)
  else if valStart ≥ funcStart ∧ valEnd > funcEnd then
    .ok (0, valStart - funcStart, funcEnd - valStart)
  else if valStart ≥ funcStart ∧ valEnd ≤ funcEnd then
    .ok (0, valStart - funcStart, r.size)
  else if valStart < funcStart ∧ valEnd > funcEnd then
    .ok (funcStart - valStart, 0, funcEnd - funcStart)
  else .error .missedCase

end

def allValid (valid : Nat → Bool) (i n : Nat) : Bool := (List.range' i (n - i)).all valid

section

variable (p : FuncPacket)
include p

def checkPartial (r : CheckedRange) (data : Nat → UInt8) :
    Except FunctionalFault (Bool × FuncPacket) := do
  let (valOffset, funcOffset, overlapSize) ← partialOverlap p r
  let valid := p.bytesValid.getD (fun _ => false)
  let valid' := fun i => decide (funcOffset ≤ i ∧ i < funcOffset + overlapSize) || valid i
  .ok (allValid valid 0 funcOffset && allValid valid' (funcOffset + overlapSize) p.size,
    { p with
      data := memcpy p.data funcOffset data valOffset overlapSize
      bytesValid := some valid' })

/-- The answer, the packet, and the bytes of the range afterwards. -/
def checkFunctional (r : CheckedRange) :
    Except FunctionalFault (Bool × FuncPacket × Option (Nat → UInt8)) :=
  if Misses p r then .ok (false, p, r.data)
  else if p.cmd = .print then
    if r.data.isSome then .error .printWithData else .ok (false, p, r.data)
  else
    match r.data with
    | none => .ok (false, p, none)
    | some data =>
      match p.cmd with
      | .read =>
        if p.addr ≥ r.addr ∧ lastAddr p.addr p.size ≤ lastAddr r.addr r.size then
          .ok (true,
            { p with
              data := memcpy p.data 0 data (p.addr - r.addr) p.size
              bytesValid := some (p.bytesValid.getD (fun _ => true)) },
            some data)
        else do
          let (answer, p) ← checkPartial p r data
          .ok (answer, p, some data)
      | .write =>
        let last := min (lastAddr p.addr p.size) (lastAddr r.addr r.size)
        if r.addr ≤ p.addr then
          .ok (false, p, some (memcpy data (p.addr - r.addr) p.data 0 (last - p.addr + 1)))
        else
          .ok (false, p, some (memcpy data 0 p.data (r.addr - p.addr) (last - r.addr + 1)))
      | _ => .error .badCommand

/-- The range has the byte `i` of the packet. -/
def Supplies (r : CheckedRange) (i : Nat) : Prop :=
  i < p.size ∧ r.isSecure = p.isSecure ∧ r.addr ≤ p.addr + i ∧ p.addr + i < r.addr + r.size

instance (r : CheckedRange) (i : Nat) : Decidable (Supplies p r i) :=
  inferInstanceAs (Decidable (_ ∧ _))

def marked : Nat → Bool := p.bytesValid.getD (fun _ => false)

/-- The range has all bytes of the packet. -/
def Covered (r : CheckedRange) : Prop :=
  r.addr ≤ p.addr ∧ lastAddr p.addr p.size ≤ lastAddr r.addr r.size

instance (r : CheckedRange) : Decidable (Covered p r) :=
  inferInstanceAs (Decidable (_ ∧ _))

def Within (r : CheckedRange) : Prop :=
  p.addr ≤ r.addr ∧ lastAddr r.addr r.size ≤ lastAddr p.addr p.size

instance (r : CheckedRange) : Decidable (Within p r) :=
  inferInstanceAs (Decidable (_ ∧ _))

end

variable {p : FuncPacket} {r : CheckedRange} {valid : Nat → Bool}

theorem not_supplies (h : Misses p r) (i : Nat) : ¬ Supplies p r i := by
  rintro ⟨hi, hsec, hle, hlt⟩
  unfold Misses lastAddr at h
  rcases h with h | h | h
  · exact h hsec
  · omega
  · omega

theorem supplies_of_covered (h : ¬ Misses p r) (hr : 0 < r.size) (hc : Covered p r)
    (hi : i < p.size) : Supplies p r i := by
  unfold Misses lastAddr at h
  unfold Covered lastAddr at hc
  push Not at h
  exact ⟨hi, h.1, by omega, by omega⟩

theorem supplies_within (h : ¬ Misses p r) (hp : 0 < p.size) (hr : 0 < r.size) (hw : Within p r)
    (i : Nat) :
    Supplies p r i ↔ r.addr - p.addr ≤ i ∧ i < r.addr - p.addr + r.size := by
  unfold Misses at h
  push Not at h
  unfold Within lastAddr at hw
  constructor
  · rintro ⟨-, -, hle, hlt⟩
    omega
  · rintro ⟨hle, hlt⟩
    exact ⟨by omega, h.1, by omega, by omega⟩

theorem allValid_eq_true : allValid valid i n = true ↔ ∀ k, i ≤ k → k < n → valid k = true := by
  unfold allValid
  rw [List.all_eq_true]
  constructor
  · intro h k hik hkn
    exact h k (List.mem_range'_1.mpr ⟨hik, by omega⟩)
  · intro h k hk
    obtain ⟨hik, hkn⟩ := List.mem_range'_1.mp hk
    exact h k hik (by omega)

/-- What a functional read has gathered, and how the last call was answered. -/
structure Access where
  packet : FuncPacket
  original : Nat → UInt8
  supplied : Nat → Option UInt8
  answer : Bool

namespace Access

/-- The bytes of the range are the latest. -/
def supply (w : Access) (r : CheckedRange) (data : Nat → UInt8) : Nat → Option UInt8 := fun i =>
  if Supplies w.packet r i then some (data (w.packet.addr + i - r.addr)) else w.supplied i

def apply (w : Access) (r : CheckedRange) : Option Access :=
  match r.data, checkFunctional w.packet r with
  | some data, .ok (answer, packet, _) =>
    if 0 < r.size then some { w with packet, supplied := supply w r data, answer } else none
  | _, _ => none

def machine : Machine Access CheckedRange where
  init w := w.packet.cmd = .read ∧ 0 < w.packet.size ∧ w.packet.bytesValid = none ∧
    w.original = w.packet.data ∧ (∀ i, w.supplied i = none) ∧ w.answer = false
  step w r w' := apply w r = some w'

def Complete (w : Access) : Prop := ∀ i, i < w.packet.size → (w.supplied i).isSome = true

instance (w : Access) : Decidable (Complete w) :=
  inferInstanceAs (Decidable (∀ i, i < w.packet.size → _))

/-- The range does not stick out of the packet on one side only; and after every byte has been
supplied, it covers the packet, or has the bytes that are not marked. -/
def Recorded (w : Access) (r : CheckedRange) : Prop :=
  (Misses w.packet r ∨ Covered w.packet r ∨ Within w.packet r) ∧
    (Complete w → ¬ Misses w.packet r ∧ (Covered w.packet r ∨
      ∀ i, i < w.packet.size → marked w.packet i = true ∨ Supplies w.packet r i))

instance (w : Access) (r : CheckedRange) : Decidable (Recorded w r) :=
  inferInstanceAs (Decidable (_ ∧ _))

/-- The packet holds the bytes supplied, and `bytesValid` tells which they are until all are. -/
structure Gathered (w : Access) : Prop where
  read : w.packet.cmd = .read
  size : 0 < w.packet.size
  data : ∀ i, w.packet.data i = (w.supplied i).getD (w.original i)
  sound : ∀ i, i < w.packet.size → marked w.packet i = true → (w.supplied i).isSome = true
  exact : ¬ Complete w → ∀ i, i < w.packet.size → (w.supplied i).isSome = true →
    marked w.packet i = true
  answer : w.answer = true ↔ Complete w

theorem start_gathered (h : machine.init w) : Gathered w := by
  obtain ⟨hread, hsize, hvalid, horiginal, hnone, hanswer⟩ := h
  have hmarked : ∀ i, marked w.packet i = false := by
    intro i
    unfold marked
    rw [hvalid]
    rfl
  refine ⟨hread, hsize, fun i => ?_, fun i _ hm => ?_, fun _ i _ hs => ?_, ?_⟩
  · rw [hnone, horiginal]
    rfl
  · rw [hmarked] at hm
    cases hm
  · rw [hnone] at hs
    cases hs
  · rw [hanswer]
    refine ⟨nofun, fun hall => ?_⟩
    have := hall 0 hsize
    rw [hnone] at this
    cases this

variable {w w' : Access} {data : Nat → UInt8} {r : CheckedRange} {p : FuncPacket}

theorem Gathered.miss (h : Gathered w) (hm : Misses w.packet r) (hfresh : ¬ Complete w) :
    Gathered { w with supplied := supply w r data, answer := false } := by
  have hsame : supply w r data = w.supplied := funext (fun i => if_neg (not_supplies hm i))
  rw [hsame]
  refine ⟨h.read, h.size, h.data, h.sound, h.exact, ?_⟩
  exact ⟨nofun, fun hall => absurd hall hfresh⟩

section

variable (h : Gathered w) (hm : ¬ Misses w.packet r) (hr : 0 < r.size)
include h hm hr

theorem Gathered.cover (hc : Covered w.packet r) : Gathered { w with
      packet := { w.packet with
        data := memcpy w.packet.data 0 data (w.packet.addr - r.addr) w.packet.size
        bytesValid := some (w.packet.bytesValid.getD (fun _ => true)) }
      supplied := supply w r data
      answer := true } := by
  have hsome : ∀ i, i < w.packet.size →
      supply w r data i = some (data (w.packet.addr + i - r.addr)) :=
    fun i hi => if_pos (supplies_of_covered hm hr hc hi)
  refine ⟨h.read, h.size, fun i => ?_, fun i hi _ => ?_, fun hno => ?_, ?_⟩
  · dsimp only
    unfold memcpy
    by_cases hi : i < w.packet.size
    · rw [if_pos ⟨Nat.zero_le _, by omega⟩, hsome i hi]
      have hle := hc.1
      refine congrArg data ?_
      omega
    · rw [if_neg (fun hin => hi (by omega)), h.data]
      refine congrArg (fun x => Option.getD x _) ?_
      exact (if_neg (fun hs => hi hs.1)).symm
  · exact congrArg Option.isSome (hsome i hi)
  · exact absurd (fun i hi => congrArg Option.isSome (hsome i hi)) hno
  · exact ⟨fun _ i hi => congrArg Option.isSome (hsome i hi), fun _ => rfl⟩

theorem Gathered.within (hw : Within w.packet r)
    (hfresh : Complete w → ∀ i, i < w.packet.size → marked w.packet i = true ∨
      Supplies w.packet r i)
    (hvalid : ∀ i, valid i = (decide (r.addr - w.packet.addr ≤ i ∧
      i < r.addr - w.packet.addr + r.size) || marked w.packet i)) :
    Gathered { w with
      packet := { w.packet with
        data := memcpy w.packet.data (r.addr - w.packet.addr) data 0 r.size
        bytesValid := some valid }
      supplied := supply w r data
      answer := allValid (marked w.packet) 0 (r.addr - w.packet.addr) &&
        allValid valid (r.addr - w.packet.addr + r.size) w.packet.size } := by
  have hsup := supplies_within hm h.size hr hw
  have hmark : ∀ i, i < w.packet.size → (valid i = true ↔ Supplies w.packet r i ∨
      marked w.packet i = true) := by
    intro i _
    rw [hvalid, Bool.or_eq_true, decide_eq_true_eq, hsup]
  have hsome : ∀ i, (supply w r data i).isSome = true ↔ Supplies w.packet r i ∨
      (w.supplied i).isSome = true := by
    intro i
    unfold supply
    split_ifs with hs
    · exact ⟨fun _ => .inl hs, fun _ => rfl⟩
    · exact ⟨.inr, fun hor => hor.resolve_left hs⟩
  -- the marks tell the supplied bytes, unless all have been supplied before
  have hcomplete : (∀ i, i < w.packet.size → valid i = true) ↔
      ∀ i, i < w.packet.size → (supply w r data i).isSome = true := by
    constructor
    · intro hall i hi
      exact (hsome i).mpr (((hmark i hi).mp (hall i hi)).imp_right (h.sound i hi))
    · intro hall i hi
      rw [hmark i hi]
      by_cases hold : Complete w
      · exact (hfresh hold i hi).symm
      · exact ((hsome i).mp (hall i hi)).imp_right (h.exact hold i hi)
  refine ⟨h.read, h.size, fun i => ?_, fun i hi hmarked => ?_, fun hno i hi hs => ?_, ?_⟩
  · dsimp only
    unfold memcpy supply
    have hle := hw.1
    by_cases hs : Supplies w.packet r i
    · rw [if_pos ((hsup i).mp hs), if_pos hs]
      refine congrArg data ?_
      have hin := (hsup i).mp hs
      omega
    · rw [if_neg (fun hin => hs ((hsup i).mpr hin)), if_neg hs]
      exact h.data i
  · exact (hsome i).mpr (((hmark i hi).mp hmarked).imp_right (h.sound i hi))
  · refine (hmark i hi).mpr ?_
    by_cases hold : Complete w
    · exact (hfresh hold i hi).symm
    · exact ((hsome i).mp hs).imp_right (h.exact hold i hi)
  · change (_ && _) = true ↔ ∀ i, i < w.packet.size → (supply w r data i).isSome = true
    rw [Bool.and_eq_true, allValid_eq_true, allValid_eq_true, ← hcomplete]
    constructor
    · rintro ⟨hlow, hhigh⟩ i hi
      rcases lt_or_ge i (r.addr - w.packet.addr) with hlt | hge
      · exact (hmark i hi).mpr (.inr (hlow i (Nat.zero_le _) hlt))
      · rcases lt_or_ge i (r.addr - w.packet.addr + r.size) with hlt | hge'
        · exact (hmark i hi).mpr (.inl ((hsup i).mpr ⟨hge, hlt⟩))
        · exact hhigh i hge' hi
    · intro hall
      have hlast : r.addr - w.packet.addr < w.packet.size := by
        have hs : Supplies w.packet r (r.addr - w.packet.addr) := (hsup _).mpr ⟨le_rfl, by omega⟩
        exact hs.1
      refine ⟨fun i _ hlt => ?_, fun i _ hi => hall i hi⟩
      refine ((hmark i (by omega)).mp (hall i (by omega))).resolve_left (fun hs => ?_)
      have hin := ((hsup i).mp hs).1
      omega

end

theorem checkFunctional_read (hread : p.cmd = .read) (hdata : r.data = some data) :
    checkFunctional p r = if Misses p r then .ok (false, p, some data)
      else if Covered p r then
        .ok (true,
          { p with
            data := memcpy p.data 0 data (p.addr - r.addr) p.size
            bytesValid := some (p.bytesValid.getD (fun _ => true)) },
          some data)
      else (checkPartial p r data).map (fun (answer, p) => (answer, p, some data)) := by
  unfold checkFunctional
  rw [hdata]
  split
  · rfl
  rw [if_neg (by rw [hread]; decide)]
  rw [hread]
  change (if Covered p r then _ else _) = _
  split
  · rfl
  · cases checkPartial p r data <;> rfl

theorem checkPartial_within (hw : Within p r) : checkPartial p r data =
      .ok (allValid (marked p) 0 (r.addr - p.addr) &&
          allValid (fun i => decide (r.addr - p.addr ≤ i ∧ i < r.addr - p.addr + r.size) ||
            marked p i) (r.addr - p.addr + r.size) p.size,
        { p with
          data := memcpy p.data (r.addr - p.addr) data 0 r.size
          bytesValid := some (fun i => decide (r.addr - p.addr ≤ i ∧
            i < r.addr - p.addr + r.size) || marked p i) }) := by
  have hoverlap : partialOverlap p r = .ok (0, r.addr - p.addr, r.size) := by
    unfold partialOverlap
    unfold Within at hw
    rw [if_neg (by omega), if_neg (by omega), if_pos (by omega)]
  unfold checkPartial
  rw [hoverlap]
  rfl

theorem Gathered.step (h : Gathered w) (hrec : Recorded w r) (hstep : apply w r = some w') :
    Gathered w' := by
  unfold apply at hstep
  split at hstep
  · rename_i data answer packet rest hdata hcheck
    split_ifs at hstep with hr
    cases hstep
    rw [checkFunctional_read h.read hdata] at hcheck
    by_cases hm : Misses w.packet r
    · rw [if_pos hm] at hcheck
      cases hcheck
      exact h.miss hm (fun hall => (hrec.2 hall).1 hm)
    rw [if_neg hm] at hcheck
    by_cases hc : Covered w.packet r
    · rw [if_pos hc] at hcheck
      cases hcheck
      exact h.cover hm hr hc
    · have hw := (hrec.1.resolve_left hm).resolve_left hc
      rw [if_neg hc, checkPartial_within hw] at hcheck
      cases hcheck
      exact h.within hm hr hw (fun hall => (hrec.2 hall).2.resolve_left hc) (fun _ => rfl)
  · cases hstep

theorem checkFunctional_write
    (hwrite : p.cmd = .write) (hp : 0 < p.size) (hr : 0 < r.size) (hdata : r.data = some data) :
    checkFunctional p r = .ok (false, p, some (fun j =>
      if r.isSecure = p.isSecure ∧ j < r.size ∧ p.addr ≤ r.addr + j ∧ r.addr + j < p.addr + p.size
      then p.data (r.addr + j - p.addr) else data j)) := by
  unfold checkFunctional
  rw [hdata]
  split
  · rename_i hm
    refine congrArg (fun x => Except.ok (false, p, some x)) (funext (fun j => (if_neg ?_).symm))
    rintro ⟨hsec, hj, hle, hlt⟩
    unfold Misses lastAddr at hm
    rcases hm with hm | hm | hm
    · exact hm hsec
    · omega
    · omega
  rename_i hm
  unfold Misses lastAddr at hm
  push Not at hm
  rw [if_neg (by rw [hwrite]; decide)]
  rw [hwrite]
  change (if r.addr ≤ p.addr then _ else _) = _
  unfold lastAddr memcpy
  split
  · refine congrArg (fun x => Except.ok (false, p, some x)) (funext (fun j => ?_))
    split
    · rename_i hin
      rw [if_pos ⟨hm.1, by omega, by omega, by omega⟩]
      exact congrArg p.data (by omega)
    · rename_i hin
      rw [if_neg (fun hall => hin ⟨by omega, by omega⟩)]
  · refine congrArg (fun x => Except.ok (false, p, some x)) (funext (fun j => ?_))
    split
    · rename_i hin
      rw [if_pos ⟨hm.1, by omega, by omega, by omega⟩]
      exact congrArg p.data (by omega)
    · rename_i hin
      rw [if_neg (fun hall => hin ⟨by omega, by omega⟩)]

/-- While no range sticks out of the packet on one side, and the answer is recorded, the packet of a
read holds the bytes supplied last and its own ones elsewhere, and the call is answered by whether
all bytes have been supplied. A write copies its bytes into the range, and changes no others. -/
theorem functional_access_sees_data (w : Access) (p : FuncPacket) (r : CheckedRange)
    (data : Nat → UInt8) :
    ((machine.restrict Recorded).Reachable w →
      (∀ i, i < w.packet.size → w.packet.data i = (w.supplied i).getD (w.original i)) ∧
      (w.answer = true ↔ Complete w)) ∧
    (p.cmd = .write → 0 < p.size → 0 < r.size → r.data = some data →
      checkFunctional p r = .ok (false, p, some (fun j =>
        if r.isSecure = p.isSecure ∧ j < r.size ∧ p.addr ≤ r.addr + j ∧ r.addr + j < p.addr + p.size
        then p.data (r.addr + j - p.addr) else data j))) := by
  refine ⟨fun hw => ?_, checkFunctional_write⟩
  have h : Gathered w := by
    refine hw.invariant (fun w hw => ?_) (fun w r w' hw hstep => ?_)
    · exact start_gathered hw
    · exact hw.step hstep.2 hstep.1
  exact ⟨fun i _ => h.data i, h.answer⟩

def smallRead : Access where
  packet :=
    { cmd := .read
      addr := 4
      size := 4
      isSecure := false
      data := fun _ => 0 }
  original := fun _ => 0
  supplied := fun _ => none
  answer := false

theorem step_of_apply (w : Access) (r : CheckedRange) (w' : Access) (h : apply w r = some w') :
    machine.step w r w' := h

/-- The range has the two first bytes of the packet, and only one is copied. -/
theorem last_byte_not_copied : ∃ w, machine.Reachable w ∧ w.supplied 1 = some 15 ∧
    w.packet.data 1 = 0 := by
  exact Machine.exists_run step_of_apply
    (.start (s := smallRead) ⟨rfl, by decide, rfl, rfl, fun _ => rfl, rfl⟩)
    [{ addr := 0, isSecure := false, size := 6, data := some (fun i => UInt8.ofNat (10 + i)) }]
    (by decide)

def smallWrite : FuncPacket where
  cmd := .write
  addr := 4
  size := 2
  isSecure := false
  data := fun i => UInt8.ofNat (i + 1)

/-- Two halves are supplied, and then all bytes; a write goes into the middle of a range. -/
theorem functional_access_sees_data_halves :
    (∃ w, (machine.restrict Recorded).Reachable w ∧ w.answer = true ∧ Complete w) ∧
    ∃ f, checkFunctional smallWrite
      { addr := 3, isSecure := false, size := 4, data := some (fun _ => 0) } =
        .ok (false, smallWrite, some f) ∧ (List.range 4).map f = [0, 1, 2, 0] := by
  constructor
  · obtain ⟨w, hw, hP⟩ := Machine.exists_run (Machine.restrict_step step_of_apply Recorded)
      (.start (s := smallRead) ⟨rfl, by decide, rfl, rfl, fun _ => rfl, rfl⟩)
      [{ addr := 4, isSecure := false, size := 2, data := some (fun _ => 1) },
        { addr := 6, isSecure := true, size := 2, data := some (fun _ => 2) },
        { addr := 6, isSecure := false, size := 2, data := some (fun _ => 3) },
        { addr := 0, isSecure := false, size := 16, data := some (fun _ => 4) }]
      (P := fun w => w.answer) (by decide)
    obtain ⟨hread, -⟩ := functional_access_sees_data w smallWrite
      { addr := 3, isSecure := false, size := 4, data := none } (fun _ => 0)
    exact ⟨w, hw, hP, (hread hw).2.mp hP⟩
  · obtain ⟨-, hwrite⟩ := functional_access_sees_data smallRead smallWrite
      { addr := 3, isSecure := false, size := 4, data := some (fun _ => 0) } (fun _ => 0)
    exact ⟨_, hwrite rfl (by decide) (by decide) rfl, by decide⟩

end Access

end FuncPacket

end Gem5.Mem
