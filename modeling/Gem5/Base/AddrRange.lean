import Gem5.Lib.Transition

namespace Gem5.Base

def mask (nbits : Nat) : Nat := 2 ^ nbits - 1

/-- `bits` of base/bitfield.hh, with `last` as it is passed: `first - nbits + 1`. -/
def bits (val : Nat) (first nbits : Nat) : Nat := (val >>> (first + 1 - nbits)) &&& mask nbits

theorem bits_lt (val : Nat) (first nbits : Nat) : bits val first nbits < 2 ^ nbits := by
  unfold bits mask
  rw [Nat.and_two_pow_sub_one_eq_mod]
  exact Nat.mod_lt _ (Nat.two_pow_pos nbits)

/-- The bounds are `Addr`, that is `uint64_t`, and the other fields `uint8_t`. -/
structure AddrRange where
  start : Nat
  «end» : Nat
  intlvHighBit : Nat
  xorHighBit : Nat
  intlvBits : Nat
  intlvMatch : Nat
deriving DecidableEq, Repr

/-- The panic of `intersects`, with the two ranges its message prints. -/
inductive Panic
  | cannotTestIntersection (r s : AddrRange)
deriving DecidableEq, Repr

abbrev Res := Except Panic

namespace AddrRange

def interleaved (r : AddrRange) : Bool := r.intlvBits != 0
def hashed (r : AddrRange) : Bool := r.interleaved && r.xorHighBit != 0

/-- Computed in `uint64_t`, so the whole address space has size zero. -/
def size (r : AddrRange) : Nat := ((r.end - r.start + 1) % 2 ^ 64) >>> r.intlvBits

def valid (r : AddrRange) : Bool := r.start ≤ r.end

def mergesWith (r s : AddrRange) : Bool :=
  s.start == r.start && s.end == r.end && s.intlvHighBit == r.intlvHighBit &&
    s.xorHighBit == r.xorHighBit && s.intlvBits == r.intlvBits

/-- The bits of an address that select the stripe of an interleaved range. -/
def select (r : AddrRange) (a : Nat) : Nat :=
  if !r.hashed then bits a r.intlvHighBit r.intlvBits
  else bits a r.intlvHighBit r.intlvBits ^^^ bits a r.xorHighBit r.intlvBits

def contains (r : AddrRange) (a : Nat) : Bool :=
  let inRange : Bool := r.start ≤ a && a ≤ r.end
  if !r.interleaved then inRange
  else if inRange then r.select a == r.intlvMatch
  else false

def intersects (s r : AddrRange) : Res Bool :=
  if s.start > r.end || s.end < r.start then .ok false
  else if !s.interleaved && !r.interleaved then .ok true
  else if r.size == 1 then .ok (s.contains r.start)
  else if s.mergesWith r then .ok (s.intlvMatch == r.intlvMatch)
  else .error (.cannotTestIntersection s r)

/-- `operator<`, the order of the map's keys. -/
def lt (r s : AddrRange) : Bool :=
  if r.start != s.start then r.start < s.start else r.intlvMatch < s.intlvMatch

end AddrRange

def RangeIn (start «end» : Nat) : AddrRange :=
  { start, «end», intlvHighBit := 0, xorHighBit := 0, intlvBits := 0, intlvMatch := 0 }

def RangeSize (start size : Nat) : AddrRange := RangeIn start ((start + size - 1) % 2 ^ 64)

namespace AddrRange

/-- What `operator<` compares. -/
def key (r : AddrRange) : Nat ×ₗ Nat := toLex (r.start, r.intlvMatch)

theorem lt_iff (r s : AddrRange) : r.lt s = true ↔ r.key < s.key := by
  unfold lt key
  rw [Prod.Lex.toLex_lt_toLex]
  by_cases h : r.start = s.start
  · simp [h]
  · simp [h]

theorem start_le_of_key_le {r s : AddrRange} (h : r.key ≤ s.key) : r.start ≤ s.start :=
  Prod.Lex.monotone_fst _ _ h

theorem contains_iff (r : AddrRange) (a : Nat) : r.contains a = true ↔
    r.start ≤ a ∧ a ≤ r.end ∧ (r.interleaved = true → r.select a = r.intlvMatch) := by
  unfold contains
  cases r.interleaved <;> simp
  tauto

theorem mergesWith_iff (r s : AddrRange) : r.mergesWith s = true ↔
    s.start = r.start ∧ s.end = r.end ∧ s.intlvHighBit = r.intlvHighBit ∧
      s.xorHighBit = r.xorHighBit ∧ s.intlvBits = r.intlvBits := by
  simp [mergesWith, and_assoc]

theorem mergesWith_symm {r s : AddrRange} (h : r.mergesWith s = true) : s.mergesWith r = true := by
  rw [mergesWith_iff] at h ⊢
  obtain ⟨h₁, h₂, h₃, h₄, h₅⟩ := h
  exact ⟨h₁.symm, h₂.symm, h₃.symm, h₄.symm, h₅.symm⟩

theorem mergesWith_trans {r s t : AddrRange} (h : r.mergesWith s = true)
    (h' : s.mergesWith t = true) : r.mergesWith t = true := by
  rw [mergesWith_iff] at h h' ⊢
  obtain ⟨h₁, h₂, h₃, h₄, h₅⟩ := h
  obtain ⟨g₁, g₂, g₃, g₄, g₅⟩ := h'
  exact ⟨g₁.trans h₁, g₂.trans h₂, g₃.trans h₃, g₄.trans h₄, g₅.trans h₅⟩

theorem select_of_mergesWith {r s : AddrRange} (h : r.mergesWith s = true) (a : Nat) :
    s.select a = r.select a := by
  obtain ⟨_, _, h₃, h₄, h₅⟩ := (mergesWith_iff r s).mp h
  simp [select, hashed, interleaved, h₃, h₄, h₅]

theorem select_lt (r : AddrRange) (a : Nat) : r.select a < 2 ^ r.intlvBits := by
  unfold select
  split
  · exact bits_lt _ _ _
  · exact Nat.xor_lt_two_pow (bits_lt _ _ _) (bits_lt _ _ _)

theorem intersects_single (s : AddrRange) (ha : a < 2 ^ 64) :
    s.intersects (RangeSize a 1) = .ok (s.contains a) := by
  have hend : (RangeSize a 1).end = a := by
    simp only [RangeSize, RangeIn]
    omega
  have hsize : (RangeSize a 1).size = 1 := by
    unfold size
    rw [hend]
    simp [RangeSize, RangeIn]
  have hplain : (RangeSize a 1).interleaved = false := rfl
  have hstart : (RangeSize a 1).start = a := rfl
  unfold intersects contains
  rw [hend, hsize, hplain, hstart]
  by_cases h₁ : s.start > a
  · simp [h₁, not_le.mpr h₁]
  · by_cases h₂ : s.end < a
    · simp [h₂, not_le.mpr h₂]
    · cases s.interleaved <;> simp [h₁, h₂, not_lt.mp h₁, not_lt.mp h₂]

end AddrRange

end Gem5.Base
