import Mathlib

namespace Gem5.Ruby

/-- `ADDRESS_WIDTH`. Addresses are 64 bit wide and are modelled as the numbers
they stand for. -/
def addressWidth : Nat := 64

def bitSelect (addr small big : Nat) : Nat :=
  if addressWidth - 1 ≤ big then addr >>> small
  else (addr % 2 ^ (big + 1)) >>> small

def bitRemove (addr small big : Nat) : Nat :=
  if addressWidth - 1 ≤ small then addr
  else if addressWidth - 1 ≤ big then addr % 2 ^ (addressWidth - small)
  else if small = 0 then addr / 2 ^ big * 2 ^ big
  else
    let lowerBits := addr % 2 ^ small
    let higherBits := addr / 2 ^ (big + 1) * 2 ^ (big + 1)
    (higherBits >>> (big - small + 1)) ||| lowerBits

def ceilLog2 (n : Nat) : Nat := if n = 1 then 0 else Nat.log2 (n - 1) + 1

/-- The directories of a system, once all of them have been initialised: how
many there are, the highest bit that selects one, and the size of a block and of
a directory. -/
structure DirectoryMemory where
  numDirectories : Nat
  numaHighBit : Nat
  blockSizeBits : Nat
  sizeBytes : Nat

namespace DirectoryMemory

variable (d : DirectoryMemory)

def numDirectoriesBits : Nat := ceilLog2 d.numDirectories

def blockSizeBytes : Nat := 2 ^ d.blockSizeBits

def numEntries : Nat := d.sizeBytes / d.blockSizeBytes

def lowBit : Nat := d.numaHighBit + 1 - d.numDirectoriesBits

def mapAddressToDirectoryVersion (address : Nat) : Nat :=
  if d.numDirectoriesBits = 0 then 0
  else bitSelect address d.lowBit d.numaHighBit

def mapAddressToLocalIdx (address : Nat) : Nat :=
  let ret :=
    if 0 < d.numDirectoriesBits then bitRemove address d.lowBit d.numaHighBit
    else address
  ret >>> d.blockSizeBits

def place (block : Nat) : Nat × Nat :=
  (d.mapAddressToDirectoryVersion (block * d.blockSizeBytes),
    d.mapAddressToLocalIdx (block * d.blockSizeBytes))

def blocks : Nat := d.numDirectories * d.numEntries

/-- No two blocks share an entry, and every block has one. -/
def Separates : Prop :=
  (∀ a < d.blocks, ∀ b < d.blocks, d.place a = d.place b → a = b) ∧
    ∀ block < d.blocks, (d.place block).2 < d.numEntries

/-- A power of two of directories, counted by an `int`; the size of a block is
an `unsigned int`, and the memory has addresses of 64 bits. -/
structure Configured (bits : Nat) : Prop where
  directories : d.numDirectories = 2 ^ bits
  few : bits < 31
  block : d.blockSizeBits < 32
  high : d.numaHighBit < addressWidth
  low : bits ≤ d.numaHighBit + 1
  entries : 0 < d.numEntries
  memory : d.blocks * d.blockSizeBytes ≤ 2 ^ addressWidth

end DirectoryMemory

section Fields

variable {a b small big : Nat}

theorem bitSelect_eq (ha : a < 2 ^ addressWidth) (hle : small ≤ big) (hbig : big < addressWidth) :
    bitSelect a small big = a / 2 ^ small % 2 ^ (big - small + 1) := by
  have hpow : 2 ^ (big + 1) = 2 ^ small * 2 ^ (big - small + 1) := by
    rw [← pow_add]
    congr 1
    omega
  unfold bitSelect
  split_ifs with htop
  · rw [Nat.shiftRight_eq_div_pow, Nat.mod_eq_of_lt]
    apply Nat.div_lt_of_lt_mul
    rw [← hpow, show big + 1 = addressWidth by omega]
    exact ha
  · rw [Nat.shiftRight_eq_div_pow, hpow, Nat.mod_mul_right_div_self]

/-- In the middle of a word the bits above are moved over those removed. -/
theorem bitRemove_mid (hpos : 0 < small) (hle : small ≤ big) (hbig : big < addressWidth - 1)
    (a : Nat) :
    bitRemove a small big = a / 2 ^ (big + 1) * 2 ^ small + a % 2 ^ small := by
  have hpow : 2 ^ (big + 1) = 2 ^ small * 2 ^ (big - small + 1) := by
    rw [← pow_add]
    congr 1
    omega
  rw [bitRemove, if_neg (by omega), if_neg (by omega), if_neg (by omega)]
  dsimp only
  rw [Nat.shiftRight_eq_div_pow, hpow, ← mul_assoc, Nat.mul_div_cancel _ (Nat.two_pow_pos _),
    mul_comm _ (2 ^ small), Nat.two_pow_add_eq_or_of_lt (Nat.mod_lt _ (Nat.two_pow_pos _))]

theorem bitRemove_low (hbig : big < addressWidth - 1) (a : Nat) :
    bitRemove a 0 big = a / 2 ^ big * 2 ^ big := by
  rw [bitRemove, if_neg (by unfold addressWidth; omega), if_neg (by omega), if_pos rfl]

theorem bitRemove_high (hsmall : small < addressWidth - 1) (a : Nat) :
    bitRemove a small (addressWidth - 1) = a % 2 ^ (addressWidth - small) := by
  rw [bitRemove, if_neg (by omega), if_pos le_rfl]

theorem bitRemove_last (a : Nat) : bitRemove a (addressWidth - 1) big = a := by
  rw [bitRemove, if_pos le_rfl]

theorem cut_eq (u n : Nat) (hin : a / 2 ^ u % 2 ^ n = b / 2 ^ u % 2 ^ n)
    (hout : a / 2 ^ (u + n) * 2 ^ u + a % 2 ^ u = b / 2 ^ (u + n) * 2 ^ u + b % 2 ^ u) : a = b := by
  have hlow : a % 2 ^ u = b % 2 ^ u := by
    have := congrArg (· % 2 ^ u) hout
    simpa [Nat.mul_add_mod'] using this
  have hhigh : a / 2 ^ (u + n) = b / 2 ^ (u + n) := by
    rw [hlow] at hout
    exact Nat.eq_of_mul_eq_mul_right (Nat.two_pow_pos u) (Nat.add_right_cancel hout)
  rw [pow_add, ← Nat.div_div_eq_div_mul, ← Nat.div_div_eq_div_mul] at hhigh
  have hdiv : a / 2 ^ u = b / 2 ^ u := by
    rw [← Nat.div_add_mod (a / 2 ^ u) (2 ^ n), ← Nat.div_add_mod (b / 2 ^ u) (2 ^ n), hin, hhigh]
  rw [← Nat.div_add_mod a (2 ^ u), ← Nat.div_add_mod b (2 ^ u), hdiv, hlow]

/-- `bitRemove` takes the bits out for every address only where it does not meet
the ends of the word. -/
theorem bitRemove_eq_iff (hle : small ≤ big) (hbig : big < addressWidth) :
    (∀ a < 2 ^ addressWidth,
      bitRemove a small big = a / 2 ^ (big + 1) * 2 ^ small + a % 2 ^ small) ↔
    0 < small ∧ big < addressWidth - 1 ∨ small = 32 ∧ big = addressWidth - 1 := by
  constructor
  · intro h
    by_contra hno
    rcases lt_or_ge big (addressWidth - 1) with hlt | hge
    · obtain rfl : small = 0 := by omega
      have := h (2 ^ big) (Nat.pow_lt_pow_right (by omega) hbig)
      rw [bitRemove_low hlt, Nat.div_self (Nat.two_pow_pos _),
        Nat.div_eq_of_lt (Nat.pow_lt_pow_right (by omega) (lt_add_one _))] at this
      simp [Nat.mod_one] at this
    obtain rfl : big = addressWidth - 1 := by omega
    rcases lt_or_ge small (addressWidth - 1) with hlt | hge
    · -- the bit that one side keeps and the other does not
      have hne : small ≠ 32 := by omega
      have := h (2 ^ min small (addressWidth - small)) (Nat.pow_lt_pow_right (by omega) (by omega))
      rw [bitRemove_high hlt, Nat.div_eq_of_lt (Nat.pow_lt_pow_right (by omega) (by omega))] at this
      rcases lt_or_ge small (addressWidth - small) with hlt | hge
      · rw [min_eq_left hlt.le, Nat.mod_self,
          Nat.mod_eq_of_lt (Nat.pow_lt_pow_right (by omega) hlt)] at this
        simp at this
      · rw [min_eq_right hge, Nat.mod_self,
          Nat.mod_eq_of_lt (Nat.pow_lt_pow_right (by omega) (by unfold addressWidth at *; omega))]
            at this
        exact absurd (by simpa using this) (Nat.two_pow_pos (addressWidth - small)).ne
    · obtain rfl : small = addressWidth - 1 := by omega
      have := h (2 ^ (addressWidth - 1)) (Nat.pow_lt_pow_right (by omega) (by decide))
      rw [bitRemove_last] at this
      revert this
      decide
  · rintro (⟨hpos, hlt⟩ | ⟨rfl, rfl⟩) a ha
    · exact bitRemove_mid hpos hle hlt a
    · rw [bitRemove_high (by decide), Nat.div_eq_of_lt (by exact ha), Nat.zero_mul, zero_add]
      rfl

/-- What is selected and what is left tell the address apart, except for a field
in the upper half that reaches the end of the word. -/
theorem bitRemove_determines_iff (hle : small ≤ big) (hbig : big < addressWidth) :
    (∀ a < 2 ^ addressWidth, ∀ b < 2 ^ addressWidth, bitSelect a small big = bitSelect b small big →
      bitRemove a small big = bitRemove b small big → a = b) ↔
    big < addressWidth - 1 ∨ small ≤ 32 ∨ small = addressWidth - 1 := by
  constructor
  · intro h
    by_contra hno
    obtain rfl : big = addressWidth - 1 := by omega
    have hlt : small < addressWidth - 1 := by unfold addressWidth at *; omega
    have hbit : 2 ^ (addressWidth - small) < 2 ^ small :=
      Nat.pow_lt_pow_right (by omega) (by unfold addressWidth at *; omega)
    have := h (2 ^ (addressWidth - small))
      (Nat.pow_lt_pow_right (by omega) (by omega)) 0 (Nat.two_pow_pos _)
      (by rw [bitSelect, bitSelect, if_pos le_rfl, if_pos le_rfl, Nat.shiftRight_eq_div_pow,
        Nat.div_eq_of_lt hbit, Nat.zero_shiftRight])
      (by rw [bitRemove_high hlt, bitRemove_high hlt, Nat.mod_self, Nat.zero_mod])
    exact absurd this (Nat.two_pow_pos _).ne'
  · intro hcases a ha b hb hin hout
    rw [bitSelect_eq ha hle hbig, bitSelect_eq hb hle hbig] at hin
    have hall : bitRemove a small big = bitRemove b small big → a % 2 ^ small = b % 2 ^ small →
        a / 2 ^ (big + 1) = b / 2 ^ (big + 1) → a = b := by
      intro _ hlow hhigh
      apply cut_eq small (big - small + 1) hin
      rw [show small + (big - small + 1) = big + 1 by omega, hlow, hhigh]
    rcases lt_or_ge big (addressWidth - 1) with hlt | hge
    · rcases Nat.eq_zero_or_pos small with rfl | hpos
      · apply hall hout (by simp [Nat.mod_one])
        rw [bitRemove_low hlt, bitRemove_low hlt] at hout
        have hdiv := Nat.eq_of_mul_eq_mul_right (Nat.two_pow_pos big) hout
        rw [pow_succ, ← Nat.div_div_eq_div_mul, hdiv, Nat.div_div_eq_div_mul]
      · apply cut_eq small (big - small + 1) hin
        rwa [bitRemove_mid hpos hle hlt, bitRemove_mid hpos hle hlt,
          show big + 1 = small + (big - small + 1) by omega] at hout
    obtain rfl : big = addressWidth - 1 := by omega
    have hzero : ∀ c < 2 ^ addressWidth, c / 2 ^ (addressWidth - 1 + 1) = 0 :=
      fun c hc => Nat.div_eq_of_lt hc
    apply hall hout ?_ ((hzero a ha).trans (hzero b hb).symm)
    rcases lt_or_ge small (addressWidth - 1) with hlt | hge
    · rw [bitRemove_high hlt, bitRemove_high hlt] at hout
      have hdvd : 2 ^ small ∣ 2 ^ (addressWidth - small) :=
        Nat.pow_dvd_pow 2 (by unfold addressWidth at *; omega)
      rw [← Nat.mod_mod_of_dvd a hdvd, hout, Nat.mod_mod_of_dvd b hdvd]
    · obtain rfl : small = addressWidth - 1 := by omega
      rw [bitRemove_last, bitRemove_last] at hout
      rw [hout]

end Fields

theorem ceilLog2_two_pow (n : Nat) : ceilLog2 (2 ^ n) = n := by
  unfold ceilLog2
  rcases Nat.eq_zero_or_pos n with rfl | hpos
  · rfl
  have hlt : 1 < 2 ^ n := Nat.one_lt_two_pow (by omega)
  rw [if_neg (by omega)]
  have hlog : Nat.log2 (2 ^ n - 1) = n - 1 := by
    rw [Nat.log2_eq_iff (by omega)]
    have hpow : 2 ^ n = 2 * 2 ^ (n - 1) := by
      rw [← pow_succ']
      congr 1
      omega
    rw [Nat.sub_add_cancel hpos]
    omega
  omega

namespace DirectoryMemory

variable {d : DirectoryMemory} {n : Nat}

namespace Configured

section

variable (h : d.Configured n)
include h

theorem bits_eq : d.numDirectoriesBits = n := by
  rw [numDirectoriesBits, h.directories, ceilLog2_two_pow]

theorem lowBit_add : d.lowBit + n = d.numaHighBit + 1 := by
  have := h.low
  rw [lowBit, h.bits_eq]
  omega

theorem blocks_eq : d.blocks = 2 ^ n * d.numEntries := by
  rw [blocks, h.directories]

theorem address_lt {block : Nat} (hb : block < d.blocks) :
    block * 2 ^ d.blockSizeBits < 2 ^ addressWidth :=
  lt_of_lt_of_le (Nat.mul_lt_mul_of_pos_right hb (Nat.two_pow_pos _)) h.memory

theorem place_eq (hn : 0 < n) {block : Nat} (hb : block < d.blocks) :
    d.place block = (block * 2 ^ d.blockSizeBits / 2 ^ d.lowBit % 2 ^ n,
      bitRemove (block * 2 ^ d.blockSizeBits) d.lowBit d.numaHighBit / 2 ^ d.blockSizeBits) := by
  have hsum := h.lowBit_add
  rw [place, mapAddressToDirectoryVersion, mapAddressToLocalIdx, h.bits_eq, if_neg (by omega),
    if_pos hn,
    blockSizeBytes, bitSelect_eq (h.address_lt hb) (by omega) h.high, Nat.shiftRight_eq_div_pow,
    show d.numaHighBit - d.lowBit + 1 = n by omega]

end

theorem place_zero_bits (h : d.Configured 0) (block : Nat) : d.place block = (0, block) := by
  rw [place, mapAddressToDirectoryVersion, mapAddressToLocalIdx, h.bits_eq, if_pos rfl,
    if_neg (by omega),
    blockSizeBytes, Nat.shiftRight_eq_div_pow, Nat.mul_div_cancel _ (Nat.two_pow_pos _)]

/-- The directory of a block is a field of its number, the entry is given by the
bits below and above. -/
theorem place_mid (h : d.Configured n) (hn : 0 < n) (hpos : 0 < d.lowBit)
    (hlow : d.blockSizeBits ≤ d.lowBit) (hhigh : d.numaHighBit < addressWidth - 1) {block : Nat}
    (hb : block < d.blocks) : d.place block = (block / 2 ^ (d.lowBit - d.blockSizeBits) % 2 ^ n,
      block / 2 ^ (d.lowBit - d.blockSizeBits + n) * 2 ^ (d.lowBit - d.blockSizeBits) +
        block % 2 ^ (d.lowBit - d.blockSizeBits)) := by
  have hsum := h.lowBit_add
  have hdiv : ∀ k, block * 2 ^ d.blockSizeBits / 2 ^ (d.blockSizeBits + k) = block / 2 ^ k := by
    intro k
    rw [pow_add, ← Nat.div_div_eq_div_mul, Nat.mul_div_cancel _ (Nat.two_pow_pos _)]
  obtain ⟨w, hw⟩ := Nat.exists_eq_add_of_le hlow
  rw [h.place_eq hn hb, bitRemove_mid hpos (by omega) hhigh, ← hsum, hw, Nat.add_sub_cancel_left,
    Nat.add_assoc, hdiv, hdiv]
  congr 1
  rw [pow_add 2 d.blockSizeBits, mul_comm block, Nat.mul_mod_mul_left, Nat.mul_left_comm,
    ← Nat.mul_add,
    Nat.mul_div_cancel_left _ (Nat.two_pow_pos _)]

end Configured

/-- The bits that select a directory lie above the offset bits of a block and
below the end of the word, and the entries are whole runs of the bits below. -/
def Aligned (d : DirectoryMemory) : Prop :=
  0 < d.lowBit ∧ d.blockSizeBits ≤ d.lowBit ∧ d.numaHighBit < addressWidth - 1 ∧
    2 ^ (d.lowBit - d.blockSizeBits) ∣ d.numEntries

theorem Aligned.separates (ha : d.Aligned) (h : d.Configured n) (hn : 0 < n) : d.Separates := by
  obtain ⟨hpos, hlow, hhigh, q, hq⟩ := ha
  constructor
  · intro a hlt b hlt' heq
    rw [h.place_mid hn hpos hlow hhigh hlt, h.place_mid hn hpos hlow hhigh hlt',
      Prod.mk.injEq] at heq
    exact cut_eq _ _ heq.1 heq.2
  intro block hlt
  rw [h.place_mid hn hpos hlow hhigh hlt, hq]
  have hdiv : block / 2 ^ (d.lowBit - d.blockSizeBits + n) < q := by
    apply Nat.div_lt_of_lt_mul
    rwa [h.blocks_eq, hq, ← mul_assoc, ← pow_add, add_comm n] at hlt
  have hmod := Nat.mod_lt block (Nat.two_pow_pos (d.lowBit - d.blockSizeBits))
  have hle := Nat.mul_le_mul_right (2 ^ (d.lowBit - d.blockSizeBits)) hdiv
  rw [Nat.succ_mul] at hle
  rw [mul_comm _ q]
  dsimp only
  omega

section Overlaps

variable (h : d.Configured n) (hn : 0 < n)

include h hn

/-- Half of the blocks are as many as a directory has entries, or more. -/
theorem half_blocks : d.numEntries ≤ 2 ^ (n - 1) * d.numEntries ∧
    2 ^ (n - 1) * d.numEntries < d.blocks := by
  have hpow : 2 ^ n = 2 * 2 ^ (n - 1) := by
    rw [← pow_succ']
    congr 1
    omega
  have hpos := Nat.mul_pos (Nat.two_pow_pos (n - 1)) h.entries
  rw [h.blocks_eq, hpow, mul_assoc]
  exact ⟨Nat.le_mul_of_pos_left _ (Nat.two_pow_pos _), by omega⟩

omit hn in
theorem two_pow_lt_blocks (hk : k < n) : 2 ^ k < d.blocks := by
  rw [h.blocks_eq]
  exact lt_of_lt_of_le (Nat.pow_lt_pow_right (by omega) hk) (Nat.le_mul_of_pos_right _ h.entries)

theorem not_separates_of_place {e : Nat} (hle : d.blockSizeBits ≤ e)
    (hlt : 2 ^ (e - d.blockSizeBits) < d.blocks) (hdir : 2 ^ e / 2 ^ d.lowBit % 2 ^ n = 0)
    (hidx : bitRemove (2 ^ e) d.lowBit d.numaHighBit / 2 ^ d.blockSizeBits = 0) : ¬d.Separates := by
  obtain ⟨k, rfl⟩ := Nat.exists_eq_add_of_le' hle
  rw [Nat.add_sub_cancel] at hlt
  intro hsep
  have hzero : 0 < d.blocks := lt_of_le_of_lt (Nat.zero_le _) hlt
  have := hsep.1 (2 ^ k) hlt 0 hzero (by
    rw [h.place_eq hn hlt, h.place_eq hn hzero, ← pow_add, hdir, hidx]
    simp [bitRemove])
  exact absurd this (Nat.two_pow_pos k).ne'

theorem not_separates_low (hlow : d.lowBit = 0) : ¬d.Separates := by
  have hsum := h.lowBit_add
  obtain ⟨hle, hlt⟩ := half_blocks h hn
  intro hsep
  have hidx := hsep.2 _ hlt
  have hdvd : 2 ^ (n - 1) ∣ 2 ^ (n - 1) * d.numEntries * 2 ^ d.blockSizeBits := by
    rw [mul_assoc]
    exact Nat.dvd_mul_right _ _
  rw [h.place_eq hn hlt, hlow, bitRemove_low (by have := h.few; unfold addressWidth; omega),
    show d.numaHighBit = n - 1 by omega, Nat.div_mul_cancel hdvd,
    Nat.mul_div_cancel _ (Nat.two_pow_pos _)] at hidx
  exact absurd hidx (by simpa using hle)

theorem not_separates_high (hhigh : d.numaHighBit = addressWidth - 1) : ¬d.Separates := by
  have hsum := h.lowBit_add
  have hfew := h.few
  have hblock := h.block
  rcases lt_or_ge d.lowBit (addressWidth - 1) with hlt | hge
  · have hbit : max n d.blockSizeBits < d.lowBit := by
      unfold addressWidth at *
      omega
    by_cases hone : d.blockSizeBits = 0 ∧ d.numEntries = 1
    · -- one entry of one byte, which the block 1 is behind
      intro hsep
      have hlt' : 1 < d.blocks := by
        rw [h.blocks_eq, hone.2, mul_one]
        exact Nat.one_lt_two_pow (by omega)
      have hidx := hsep.2 1 hlt'
      rw [h.place_eq hn hlt', hone.1, hone.2, hhigh, bitRemove_high hlt,
        show addressWidth - d.lowBit = n by omega] at hidx
      simp [Nat.mod_eq_of_lt (Nat.one_lt_two_pow (n := n) (by omega))] at hidx
    have hlt' : 2 ^ (max n d.blockSizeBits - d.blockSizeBits) < d.blocks := by
      by_cases hbits : d.blockSizeBits = 0
      · have hmany : 1 < d.numEntries := by
          have := h.entries
          omega
        rw [h.blocks_eq, hbits, Nat.max_zero, Nat.sub_zero]
        exact (Nat.lt_mul_iff_one_lt_right (Nat.two_pow_pos n)).mpr hmany
      · exact two_pow_lt_blocks h (by omega)
    apply not_separates_of_place h hn (le_max_right n _) hlt'
    · rw [Nat.div_eq_of_lt (Nat.pow_lt_pow_right (by omega) hbit), Nat.zero_mod]
    · rw [hhigh, bitRemove_high hlt, show addressWidth - d.lowBit = n by omega,
        Nat.mod_eq_zero_of_dvd (Nat.pow_dvd_pow 2 (le_max_left n _)), Nat.zero_div]
  · obtain ⟨hle, hlt⟩ := half_blocks h hn
    intro hsep
    have hidx := hsep.2 _ hlt
    rw [h.place_eq hn hlt, show d.lowBit = addressWidth - 1 by omega, bitRemove_last,
      Nat.mul_div_cancel _ (Nat.two_pow_pos _)] at hidx
    exact absurd hidx (by simpa using hle)

theorem not_separates_offset (hpos : 0 < d.lowBit) (hhigh : d.numaHighBit < addressWidth - 1)
    (hlow : d.lowBit < d.blockSizeBits) : ¬d.Separates := by
  have hsum := h.lowBit_add
  have hle : d.numaHighBit + 1 ≤ max d.blockSizeBits (d.numaHighBit + 1) := le_max_right _ _
  apply not_separates_of_place h hn (le_max_left _ (d.numaHighBit + 1))
    (two_pow_lt_blocks h (by omega))
  · rw [Nat.pow_div (by omega) (by omega)]
    exact Nat.mod_eq_zero_of_dvd (Nat.pow_dvd_pow 2 (by omega))
  · rw [bitRemove_mid hpos (by omega) hhigh, Nat.pow_div hle (by omega), ← pow_add,
      Nat.mod_eq_zero_of_dvd (Nat.pow_dvd_pow 2 (by omega)), add_zero]
    exact Nat.div_eq_of_lt (Nat.pow_lt_pow_right (by omega) (by omega))

/-- The first block past the last whole run has an entry that is not there. -/
theorem not_separates_entries (hpos : 0 < d.lowBit) (hlow : d.blockSizeBits ≤ d.lowBit)
    (hhigh : d.numaHighBit < addressWidth - 1)
    (hdvd : ¬2 ^ (d.lowBit - d.blockSizeBits) ∣ d.numEntries) : ¬d.Separates := by
  intro hsep
  obtain ⟨w, hw⟩ := Nat.exists_eq_add_of_le hlow
  rw [hw, Nat.add_sub_cancel_left] at hdvd
  have hrest : 0 < d.numEntries % 2 ^ w :=
    Nat.pos_of_ne_zero (fun hz => hdvd (Nat.dvd_of_mod_eq_zero hz))
  have hmod : d.numEntries % 2 ^ w < 2 ^ w := Nat.mod_lt _ (Nat.two_pow_pos _)
  have hdiv := Nat.div_add_mod d.numEntries (2 ^ w)
  have hwn : (2 : Nat) ^ (w + n) = 2 ^ n * 2 ^ w := by rw [add_comm, pow_add]
  have hone : 1 < 2 ^ n := Nat.one_lt_two_pow (by omega)
  have hlt : d.numEntries / 2 ^ w * 2 ^ (w + n) + d.numEntries % 2 ^ w < d.blocks := by
    rw [h.blocks_eq]
    nth_rewrite 3 [← hdiv]
    rw [hwn, Nat.mul_add, Nat.mul_left_comm, mul_comm _ (2 ^ w)]
    apply Nat.add_lt_add_left
    exact (Nat.lt_mul_iff_one_lt_left hrest).mpr hone
  have hsmall : d.numEntries % 2 ^ w < 2 ^ (w + n) :=
    lt_of_lt_of_le hmod (Nat.pow_le_pow_right (by omega) (by omega))
  have hidx := hsep.2 _ hlt
  rw [h.place_mid hn hpos hlow hhigh hlt, hw, Nat.add_sub_cancel_left] at hidx
  dsimp only at hidx
  rw [mul_comm _ (2 ^ (w + n)), Nat.mul_add_div (Nat.two_pow_pos _), Nat.div_eq_of_lt hsmall,
    add_zero, pow_add, mul_assoc, Nat.mul_add_mod, Nat.mod_mod, mul_comm _ (2 ^ w),
    hdiv] at hidx
  exact lt_irrefl _ hidx

end Overlaps

theorem separates_single (h : d.Configured 0) : d.Separates := by
  constructor
  · intro a _ b _ heq
    rw [h.place_zero_bits, h.place_zero_bits] at heq
    exact (Prod.mk.inj heq).2
  · intro block hlt
    rw [h.place_zero_bits]
    simpa [h.blocks_eq] using hlt

theorem separates_iff (h : d.Configured n) : d.Separates ↔ n = 0 ∨ d.Aligned := by
  have hsum := h.lowBit_add
  have hhigh := h.high
  constructor
  · intro hsep
    by_contra hno
    rw [not_or] at hno
    have hn : 0 < n := Nat.pos_of_ne_zero hno.1
    have hpos : 0 < d.lowBit := Nat.pos_of_ne_zero (fun hz => not_separates_low h hn hz hsep)
    have hlt : d.numaHighBit < addressWidth - 1 := by
      by_contra hge
      exact not_separates_high h hn (by omega) hsep
    have hlow : d.blockSizeBits ≤ d.lowBit := by
      by_contra hlow
      exact not_separates_offset h hn hpos hlt (by omega) hsep
    apply not_separates_entries h hn hpos hlow hlt ?_ hsep
    intro hdvd
    exact hno.2 ⟨hpos, hlow, hlt, hdvd⟩
  · intro hcases
    rcases Nat.eq_zero_or_pos n with rfl | hn
    · exact separates_single h
    · exact (hcases.resolve_left (by omega)).separates h hn

/-- The laws of `bitSelect` and `bitRemove` for a field, and what follows for directories. -/
theorem bit_fields_iff (small big : Nat) (hle : small ≤ big) (hbig : big < addressWidth)
    (d : DirectoryMemory) (n : Nat) (h : d.Configured n) :
    (∀ a < 2 ^ addressWidth, bitSelect a small big = a / 2 ^ small % 2 ^ (big - small + 1)) ∧
    ((∀ a < 2 ^ addressWidth,
      bitRemove a small big = a / 2 ^ (big + 1) * 2 ^ small + a % 2 ^ small) ↔
      0 < small ∧ big < addressWidth - 1 ∨ small = 32 ∧ big = addressWidth - 1) ∧
    ((∀ a < 2 ^ addressWidth, ∀ b < 2 ^ addressWidth,
      bitSelect a small big = bitSelect b small big →
      bitRemove a small big = bitRemove b small big → a = b) ↔
      big < addressWidth - 1 ∨ small ≤ 32 ∨ small = addressWidth - 1) ∧
    (d.Separates ↔ n = 0 ∨ d.Aligned) :=
  ⟨fun _ ha => bitSelect_eq ha hle hbig, bitRemove_eq_iff hle hbig,
    bitRemove_determines_iff hle hbig,
    separates_iff h⟩

/-- Four directories of a megabyte, selected by the two bits above the offset of a block. -/
theorem bit_fields_four : (⟨4, 7, 6, 2 ^ 20⟩ : DirectoryMemory).Separates ∧
    ∀ a < 2 ^ addressWidth, bitRemove a 6 7 = a / 2 ^ 8 * 2 ^ 6 + a % 2 ^ 6 := by
  have hlow : (⟨4, 7, 6, 2 ^ 20⟩ : DirectoryMemory).lowBit = 6 := by decide
  have h := bit_fields_iff 6 7 (by decide) (by decide) ⟨4, 7, 6, 2 ^ 20⟩ 2
    ⟨rfl, by decide, by decide, by decide, by decide, by decide, by decide⟩
  refine ⟨h.2.2.2.mpr (.inr ⟨by decide, by decide, by decide, ?_⟩), h.2.1.mpr (by decide)⟩
  rw [hlow]
  exact one_dvd _

/-- At the ends of the word other bits are left: bit 0 is not removed, and below a field in the two
highest bits only two bits are kept. All blocks that four directories get so share one entry. -/
theorem bitRemove_at_ends : bitRemove 1 0 0 ≠ 1 / 2 ^ 1 * 2 ^ 0 + 1 % 2 ^ 0 ∧
    (bitSelect 64 62 63 = bitSelect 0 62 63 ∧ bitRemove 64 62 63 = bitRemove 0 62 63) ∧
    (⟨4, 63, 6, 2 ^ 20⟩ : DirectoryMemory).Configured 2 ∧
    (⟨4, 63, 6, 2 ^ 20⟩ : DirectoryMemory).place 0 =
    (⟨4, 63, 6, 2 ^ 20⟩ : DirectoryMemory).place 1 :=
  ⟨by decide, by decide, ⟨rfl, by decide, by decide, by decide, by decide, by decide, by decide⟩,
    by decide⟩

end DirectoryMemory

end Gem5.Ruby
