import Gem5.Base.AddrRange

namespace Gem5.Base.AddrRange

/-- The fatal errors of the constructors, with what their messages print. A shift by the width
of the type or more is undefined. -/
inductive Fatal
  | sameHighBit
  | xorTooClose (intlvBits : Nat)
  | intlvTooClose (intlvBits : Nat)
  | spanning (ranges intlvBits : Nat)
  | cannotMerge
  | expectedMatch (expected got : Nat)
  | undefinedShift
deriving DecidableEq, Repr

/-- The constructor of an interleaved range. It ignores the XOR bits if not interleaving. -/
def interleave (r : AddrRange) : Except Fatal AddrRange :=
  if r.intlvBits ≠ 0 ∧ r.xorHighBit ≠ 0 then
    if r.xorHighBit = r.intlvHighBit then .error .sameHighBit
    else if r.xorHighBit > r.intlvHighBit then
      if r.xorHighBit - r.intlvHighBit < r.intlvBits then .error (.xorTooClose r.intlvBits)
        else .ok r
    else if r.intlvHighBit - r.xorHighBit < r.intlvBits then .error (.intlvTooClose r.intlvBits)
    else .ok r
  else .ok r

def checkMatches (first : AddrRange) : Nat → List AddrRange → Except Fatal Unit
  | _, [] => .ok ()
  | expected, r :: rs =>
    if !first.mergesWith r then .error .cannotMerge
    else if r.intlvMatch ≠ expected then .error (.expectedMatch expected r.intlvMatch)
    else checkMatches first ((expected + 1) % 2 ^ 8) rs

def merge : List AddrRange → Except Fatal AddrRange
  | [] => .ok (RangeIn 1 0)
  | first :: rest =>
    if 64 ≤ first.intlvBits then .error .undefinedShift
    else if (first :: rest).length ≠ 2 ^ first.intlvBits then
      .error (.spanning (first :: rest).length first.intlvBits)
    else (checkMatches first 0 (first :: rest)).map (fun _ => RangeIn first.start first.end)

/-- Each address of the merged range is in exactly one of the ranges, and no other address is
in any of them. -/
def Partition (ranges : List AddrRange) (merged : AddrRange) : Prop :=
  (∀ a, merged.contains a = true ↔ ∃ r ∈ ranges, r.contains a = true) ∧
    ∀ a, merged.start ≤ a → a ≤ merged.end →
      ∃! i : Nat, ∃ r : AddrRange, ranges[i]? = some r ∧ r.contains a = true

theorem checkMatches_spec {first : AddrRange} {rs : List AddrRange}
    (h : checkMatches first (k % 2 ^ 8) rs = .ok ()) (hi : rs[i]? = some r) :
    first.mergesWith r = true ∧ r.intlvMatch = (k + i) % 2 ^ 8 := by
  induction rs generalizing k i with
  | nil => cases hi
  | cons r' rs ih =>
    rw [checkMatches] at h
    split at h
    · cases h
    rename_i hmerges
    split_ifs at h with hmatch
    cases i with
    | zero =>
      cases hi
      simp_all
    | succ i =>
      have := ih (k := k + 1) (i := i) (by simpa [Nat.add_mod] using h) (by simpa using hi)
      rwa [Nat.add_right_comm] at this

variable {ranges : List AddrRange} {first merged : AddrRange}

theorem contains_RangeIn (s e a : Nat) : (RangeIn s e).contains a = true ↔ s ≤ a ∧ a ≤ e := by
  rw [contains_iff]
  simp [interleaved, RangeIn]

section

variable (hlen : ranges.length = 2 ^ first.intlvBits)
  (hcheck : checkMatches first 0 ranges = .ok ())
include hlen hcheck

/-- What is in the range at index `i`: its match is the index, cut to eight bits. -/
theorem contains_at (hi : ranges[i]? = some r) (a : Nat) : r.contains a = true ↔
      first.start ≤ a ∧ a ≤ first.end ∧ first.select a = i % 2 ^ 8 := by
  obtain ⟨hmerges, hmatch⟩ := checkMatches_spec (k := 0) hcheck hi
  obtain ⟨hs, he, -, -, hb⟩ := (mergesWith_iff first r).mp hmerges
  rw [contains_iff, hs, he, select_of_mergesWith hmerges, hmatch, zero_add]
  refine and_congr_right (fun _ => and_congr_right (fun _ => ⟨fun h => ?_, fun h _ => h⟩))
  cases hint : r.interleaved with
  | true => exact h hint
  | false =>
    -- a single range, whose only stripe is stripe zero
    have hzero : first.intlvBits = 0 := by simpa [interleaved, hb] using hint
    have hlt := select_lt first a
    have hi := (List.getElem?_eq_some_iff.mp hi).1
    rw [hzero] at hlt hlen
    omega

theorem partition_iff : Partition ranges (RangeIn first.start first.end) ↔
      first.intlvBits ≤ 8 ∨ first.end < first.start := by
  have hat := fun {i r} => contains_at hlen hcheck (i := i) (r := r)
  constructor
  · rintro ⟨-, hone⟩
    by_contra hcon
    push Not at hcon
    have h9 : 2 ^ 9 ≤ ranges.length := hlen ▸ Nat.pow_le_pow_right (by omega) hcon.1
    obtain ⟨i, ⟨r, hi, hr⟩, huniq⟩ := hone first.start le_rfl hcon.2
    have hsel := ((hat hi first.start).mp hr).2.2
    have hmem : ∀ j, j < ranges.length → j % 2 ^ 8 = i % 2 ^ 8 → j = i := fun j hj hmod =>
      huniq j ⟨ranges[j], List.getElem?_eq_getElem hj,
        (hat (List.getElem?_eq_getElem hj) first.start).mpr ⟨le_rfl, hcon.2, hmod ▸ hsel⟩⟩
    have := hmem (i % 2 ^ 8) (by omega) (by omega)
    have := hmem (i % 2 ^ 8 + 2 ^ 8) (by omega) (by omega)
    omega
  · intro hcond
    have hin : ∀ a, first.start ≤ a → a ≤ first.end →
        ∃! i : Nat, ∃ r : AddrRange, ranges[i]? = some r ∧ r.contains a = true := by
      intro a hs he
      have hpow : 2 ^ first.intlvBits ≤ 2 ^ 8 := Nat.pow_le_pow_right (by omega) (by omega)
      have hlt : first.select a < ranges.length := hlen ▸ select_lt first a
      refine ⟨first.select a, ⟨_, List.getElem?_eq_getElem hlt, ?_⟩, ?_⟩
      · refine (hat (List.getElem?_eq_getElem hlt) a).mpr ⟨hs, he, ?_⟩
        rw [Nat.mod_eq_of_lt (by omega)]
      · rintro j ⟨r, hj, hr⟩
        have := (List.getElem?_eq_some_iff.mp hj).1
        rw [((hat hj a).mp hr).2.2, Nat.mod_eq_of_lt (by omega)]
    refine ⟨fun a => ?_, hin⟩
    rw [contains_RangeIn]
    constructor
    · rintro ⟨hs, he⟩
      obtain ⟨i, ⟨r, hi, hr⟩, -⟩ := hin a hs he
      exact ⟨r, List.mem_of_getElem? hi, hr⟩
    · rintro ⟨r, hr, ha⟩
      obtain ⟨i, hi⟩ := List.getElem?_of_mem hr
      have := (hat hi a).mp ha
      exact ⟨this.1, this.2.1⟩

end

/-- The ranges that merge partition the merged range exactly if the matches of so many bits
have values of their own, or there is nothing to partition. -/
theorem merged_partition_iff (h : merge ranges = .ok merged) : Partition ranges merged ↔
      (∀ r ∈ ranges, r.intlvBits ≤ 8) ∨ merged.end < merged.start := by
  cases ranges with
  | nil =>
    cases h
    refine ⟨fun _ => .inl (by simp), fun _ => ⟨fun a => ?_, fun a h₁ h₂ => ?_⟩⟩
    · rw [contains_RangeIn]
      simp
      omega
    · exact absurd (h₁.trans h₂) (by decide)
  | cons first rest =>
    rw [merge] at h
    split at h
    · cases h
    split_ifs at h with hlen
    push Not at hlen
    cases hcheck : checkMatches first 0 (first :: rest) with
    | error e => simp [hcheck, Except.map] at h
    | ok u =>
      rw [hcheck] at h
      cases h
      rw [partition_iff hlen hcheck]
      refine or_congr_left ⟨fun h r hr => ?_, fun h => h first (by simp)⟩
      obtain ⟨i, hi⟩ := List.getElem?_of_mem hr
      rwa [((mergesWith_iff first r).mp (checkMatches_spec (k := 0) hcheck hi).1).2.2.2.2]

/-- Two channels that take turns by cache line. -/
theorem merged_partition_two :
    Partition [⟨0, 255, 6, 0, 1, 0⟩, ⟨0, 255, 6, 0, 1, 1⟩] (RangeIn 0 255) :=
  (merged_partition_iff (by decide)).mpr (.inl (by decide))

/-- One of 512 stripes. The match is a `uint8_t`. -/
def stripe (i : Nat) : AddrRange := ⟨0, 511, 8, 0, 9, i % 2 ^ 8⟩

/-- Ranges of nine interleaving bits merge, and leave addresses of the merged range out. -/
theorem nine_bits_leave_holes : (∀ i < 512, (stripe i).interleave = .ok (stripe i)) ∧
    merge ((List.range 512).map stripe) = .ok (RangeIn 0 511) ∧
    (RangeIn 0 511).contains 256 = true ∧
    ∀ i < 512, (stripe i).contains 256 = false := by
  refine ⟨fun i _ => rfl, by decide +kernel, by decide, by decide +kernel⟩

end Gem5.Base.AddrRange
