import Mathlib

namespace Gem5.Base

open Nat

/-! Cutting a region into chunks. Addresses have 64 bits, sizes 32. -/

structure ChunkGenerator where
  curAddr : Nat
  nextAddr : Nat
  curSize : Nat
  sizeLeft : Nat
  startAddr : Nat
  chunkSize : Nat

def roundUp (val align : Nat) : Nat :=
  let mask := align - 1
  (val + mask) % 2 ^ 64 &&& (2 ^ 64 - (mask + 1))

namespace ChunkGenerator

def new (startAddr totalSize chunkSize : Nat) : ChunkGenerator :=
  let nextAddr :=
    if chunkSize = 0 then (startAddr + totalSize) % 2 ^ 64
    else
      let nextAddr := roundUp startAddr chunkSize
      if startAddr = nextAddr then (nextAddr + chunkSize) % 2 ^ 64 else nextAddr
  let leftInChunk := (nextAddr + 2 ^ 64 - startAddr) % 2 ^ 64 % 2 ^ 32
  let curSize := min totalSize leftInChunk
  { curAddr := startAddr, nextAddr, curSize, sizeLeft := totalSize - curSize, startAddr, chunkSize }

def addr (g : ChunkGenerator) : Nat := g.curAddr

def size (g : ChunkGenerator) : Nat := g.curSize

def complete (g : ChunkGenerator) : Nat := (g.curAddr + 2 ^ 64 - g.startAddr) % 2 ^ 64 % 2 ^ 32

def done (g : ChunkGenerator) : Bool := g.curSize == 0

def last (g : ChunkGenerator) : Bool := g.sizeLeft == 0

def next (g : ChunkGenerator) : ChunkGenerator × Bool :=
  if g.sizeLeft = 0 then ({ g with curSize := 0 }, false)
  else
    let curSize := min g.sizeLeft g.chunkSize
    ({ g with
      curAddr := g.nextAddr
      curSize
      sizeLeft := g.sizeLeft - curSize
      nextAddr := (g.nextAddr + curSize) % 2 ^ 64 }, true)

/-- The loop over `done` and `next` sees chunks of these sizes, one behind the other from `passed`
bytes after the start, none across a multiple of the chunk size. -/
def Visits (start chunk : Nat) : Nat → List Nat → ChunkGenerator → Prop
  | _, [], g => g.done = true
  | passed, size :: sizes, g =>
    g.done = false ∧ g.size = size ∧ g.addr = (start + passed) % 2 ^ 64 ∧ g.complete = passed ∧
      (chunk ≠ 0 → g.addr % chunk + size ≤ chunk) ∧ (g.last = true ↔ sizes = []) ∧
      Visits start chunk (passed + size) sizes g.next.1

/-- The chunk in hand starts `passed` bytes after the start, and the next one where it ends. -/
structure At (start total chunk passed : Nat) (g : ChunkGenerator) : Prop where
  from_start : g.startAddr = start
  by_chunk : g.chunkSize = chunk
  addr : g.curAddr = (start + passed) % 2 ^ 64
  total : passed + g.curSize + g.sizeLeft = total
  pos : 0 < g.curSize
  fits : chunk ≠ 0 → (start + passed) % chunk + g.curSize ≤ chunk
  more : g.sizeLeft ≠ 0 → chunk ≠ 0 ∧ chunk ∣ start + passed + g.curSize ∧
    g.nextAddr = (start + passed + g.curSize) % 2 ^ 64

variable {start total chunk passed : Nat} {g : ChunkGenerator}

theorem At.next (h : At start total chunk passed g) (hleft : g.sizeLeft ≠ 0) :
    At start total chunk (passed + g.curSize) g.next.1 := by
  obtain ⟨hchunk, ⟨m, hm⟩, hnext⟩ := h.more hleft
  have htotal := h.total
  simp only [ChunkGenerator.next, if_neg hleft, h.by_chunk]
  refine ⟨h.from_start, rfl, by simp [hnext, add_assoc], by grind, by grind, fun _ => ?_,
    fun hmore => ⟨hchunk, ?_, ?_⟩⟩
  · simp [← add_assoc, hm]
  · -- bytes are left only after a full chunk
    have hfull : min g.sizeLeft chunk = chunk := by grind
    simp [← add_assoc, hm, hfull]
  · simp [hnext, add_assoc]

theorem At.visits (hdvd : chunk ≠ 0 → chunk ∣ 2 ^ 64) (hlt : start < 2 ^ 64) (ht : total < 2 ^ 32)
    (h : At start total chunk passed g) :
    ∃ sizes : List Nat, passed + sizes.sum = total ∧ (∀ s ∈ sizes, 0 < s) ∧ sizes ≠ [] ∧
      Visits start chunk passed sizes g := by
  induction hn : g.sizeLeft using Nat.strong_induction_on generalizing passed g with
  | _ n ih =>
    have htotal := h.total
    have hdone : g.done = false := by simp [done, h.pos.ne']
    have hcomplete : g.complete = passed := by
      rw [complete, h.addr, h.from_start]
      omega
    have hfits : chunk ≠ 0 → g.addr % chunk + g.curSize ≤ chunk := by
      intro hchunk
      rw [ChunkGenerator.addr, h.addr, mod_mod_of_dvd _ (hdvd hchunk)]
      exact h.fits hchunk
    by_cases hleft : g.sizeLeft = 0
    · refine ⟨[g.curSize], by simp; omega, by simpa using h.pos, by simp, hdone, rfl, h.addr,
        hcomplete, hfits, by simp [last, hleft], ?_⟩
      simp [Visits, ChunkGenerator.next, hleft, done]
    have hnext := h.next hleft
    have hdown : g.next.1.sizeLeft < n := by
      have := hnext.total
      have := hnext.pos
      omega
    obtain ⟨sizes, hsum, hpos, hne, hv⟩ := ih _ hdown hnext rfl
    refine ⟨g.curSize :: sizes, by simp; omega, ?_, by simp, hdone, rfl, h.addr, hcomplete,
      hfits, by simp [last, hleft, hne], hv⟩
    simpa [h.pos] using hpos

/-- Rounding up to a power of two, with the wrap of the addresses. -/
theorem roundUp_eq (k : Nat) (hk : k < 32) (start : Nat) :
    roundUp start (2 ^ k) = (start + (2 ^ k - 1)) / 2 ^ k * 2 ^ k % 2 ^ 64 := by
  have hlow : 2 ^ k - 1 < 2 ^ 64 :=
    (Nat.sub_lt (Nat.two_pow_pos k) Nat.one_pos).trans
      (Nat.pow_lt_pow_right (by decide) (by omega))
  have hsplit : 2 ^ 64 = 2 ^ k * 2 ^ (64 - k) := by
    rw [← Nat.pow_add, Nat.add_sub_cancel' (by omega)]
  have hbits : ∀ y < 2 ^ 64, y &&& (2 ^ 64 - (2 ^ k - 1 + 1)) = y / 2 ^ k * 2 ^ k := by
    intro y hy
    refine eq_of_testBit_eq fun i => ?_
    rw [testBit_and, testBit_two_pow_sub_succ hlow, testBit_two_pow_sub_one,
      testBit_mul_two_pow, testBit_div_two_pow]
    by_cases hik : k ≤ i
    · by_cases hi : i < 64
      · simp [hi, hik]
      · have hhigh : y < 2 ^ i := hy.trans_le (Nat.pow_le_pow_right (by decide) (by omega))
        simp [hik, testBit_lt_two_pow hhigh]
    · simp [hik, not_le.mp hik]
  rw [roundUp, hbits _ (mod_lt _ (by decide)), hsplit, mod_mul_right_div_self,
    mul_comm (2 ^ k), mul_mod_mul_right]

/-- The address after the first chunk, for a start that is aligned or not. -/
theorem new_nextAddr (k : Nat) (hk : k < 32) (hlt : start < 2 ^ 64) :
    (new start total (2 ^ k)).nextAddr = (start + (2 ^ k - start % 2 ^ k)) % 2 ^ 64 := by
  have hpos := Nat.two_pow_pos k
  have hmod := mod_lt start hpos
  have hdiv := div_add_mod' start (2 ^ k)
  simp only [new, hpos.ne', if_false, roundUp_eq k hk]
  by_cases hd : start % 2 ^ k = 0
  · have hround : (start + (2 ^ k - 1)) / 2 ^ k * 2 ^ k = start := by
      have hq : (start + (2 ^ k - 1)) / 2 ^ k = start / 2 ^ k :=
        Nat.div_eq_of_lt_le (by omega) (by rw [Nat.succ_mul]; omega)
      rw [hq]
      omega
    rw [hround, Nat.mod_eq_of_lt hlt, if_pos rfl, hd, Nat.sub_zero]
  · have hround : (start + (2 ^ k - 1)) / 2 ^ k * 2 ^ k = start + (2 ^ k - start % 2 ^ k) := by
      have hq : (start + (2 ^ k - 1)) / 2 ^ k = start / 2 ^ k + 1 :=
        Nat.div_eq_of_lt_le (by rw [Nat.succ_mul]; omega) (by simp only [Nat.succ_mul]; omega)
      rw [hq, succ_mul]
      omega
    have hk' : 2 ^ k < 2 ^ 32 := Nat.pow_lt_pow_right (by decide) hk
    rw [hround, if_neg (by omega)]

theorem new_at (k : Nat) (hk : k < 32) (hlt : start < 2 ^ 64) (ht : 0 < total) :
    At start total (2 ^ k) 0 (new start total (2 ^ k)) := by
  have hk' : 2 ^ k < 2 ^ 32 := Nat.pow_lt_pow_right (by decide) hk
  have hmod := Nat.mod_lt start (Nat.two_pow_pos k)
  have hsize : (new start total (2 ^ k)).curSize = min total (2 ^ k - start % 2 ^ k) := by
    change min total (((new start total (2 ^ k)).nextAddr + 2 ^ 64 - start) % 2 ^ 64 % 2 ^ 32) = _
    rw [new_nextAddr k hk hlt]
    omega
  have hleft : (new start total (2 ^ k)).sizeLeft = total - (new start total (2 ^ k)).curSize := rfl
  refine ⟨rfl, rfl, (mod_eq_of_lt hlt).symm, by omega, by omega, fun _ => ?_, fun hmore => ?_⟩
  · simp only [add_zero]
    omega
  have hfull : (new start total (2 ^ k)).curSize = 2 ^ k - start % 2 ^ k := by omega
  refine ⟨(Nat.two_pow_pos k).ne', ?_, by simpa [hfull] using new_nextAddr k hk hlt⟩
  refine ⟨start / 2 ^ k + 1, ?_⟩
  rw [hfull, mul_succ]
  have := div_add_mod start (2 ^ k)
  omega

/-- The chunks of a region are not empty, follow one another, add up to the region and end at the
last one, also where the addresses wrap. -/
theorem chunks_partition_region (start total chunk : Nat) (hstart : start < 2 ^ 64)
    (htotal : total < 2 ^ 32) (hchunk : chunk = 0 ∨ ∃ k < 32, chunk = 2 ^ k) :
    ∃ sizes : List Nat, sizes.sum = total ∧ (∀ s ∈ sizes, 0 < s) ∧
      Visits start chunk 0 sizes (new start total chunk) := by
  by_cases ht : total = 0
  · exact ⟨[], by simp [ht], by simp, by simp [Visits, done, new, ht]⟩
  have hat : At start total chunk 0 (new start total chunk) := by
    rcases hchunk with rfl | ⟨k, hk, rfl⟩
    · have hsize : (new start total 0).curSize = total := by
        simp only [new, if_true]
        omega
      have hleft : (new start total 0).sizeLeft = total - (new start total 0).curSize := rfl
      exact ⟨rfl, rfl, (mod_eq_of_lt hstart).symm, by omega, by omega, by simp,
        fun hmore => absurd (hleft.trans (by omega)) hmore⟩
    · exact new_at k hk hstart (pos_of_ne_zero ht)
  have hdvd : chunk ≠ 0 → chunk ∣ 2 ^ 64 := by
    rcases hchunk with rfl | ⟨k, hk, rfl⟩
    · simp
    · exact fun _ => pow_dvd_pow 2 (by omega)
  obtain ⟨sizes, hsum, hpos, _, hv⟩ := hat.visits hdvd hstart htotal
  exact ⟨sizes, by omega, hpos, hv⟩

theorem chunks_partition_region_wrap : ∃ sizes : List Nat, sizes.sum = 10 ∧ (∀ s ∈ sizes, 0 < s) ∧
    Visits (2 ^ 64 - 3) 4 0 sizes (new (2 ^ 64 - 3) 10 4) :=
  chunks_partition_region (2 ^ 64 - 3) 10 4 (by decide) (by decide) (.inr ⟨2, by decide, rfl⟩)

end ChunkGenerator

end Gem5.Base
