import Mathlib

namespace Lib.Numeral

open List Nat

/-! Numbers as text: decimal numerals as they are written, and numerals as they are read when the
text itself tells the base. -/

/-- White space in the C locale. -/
def isSpace (c : Char) : Bool :=
  c = ' ' || c = '\t' || c = '\n' || c = '\x0b' || c = '\x0c' || c = '\r'

/-- What a character stands for as a digit; 36 if it is none in any base. -/
def digitValue (c : Char) : Nat :=
  if c.isDigit then c.toNat - '0'.toNat
  else if c.isLower then c.toNat - 'a'.toNat + 10
  else if c.isUpper then c.toNat - 'A'.toNat + 10
  else 36

def ofDigits (base : Nat) (l : List Char) : Nat := l.foldl (fun n c => base * n + digitValue c) 0

/-- An optional sign, and what follows it. -/
def takeSign : List Char → Bool × List Char
  | '-' :: l => (true, l)
  | '+' :: l => (false, l)
  | l => (false, l)

/-- The base, and the digits: `0x` is hexadecimal if a digit follows it, another `0` is octal. -/
def takeBase : List Char → Nat × List Char
  | '0' :: l =>
    match l with
    | x :: d :: l' => if (x = 'x' || x = 'X') && digitValue d < 16 then (16, d :: l') else
      (8, '0' :: l)
    | _ => (8, '0' :: l)
  | l => (10, l)

/-- Reads the numeral at the front, with its sign. Whatever follows it does not matter. -/
def read (l : List Char) : Option (Bool × Nat) :=
  let (negative, l) := takeSign (l.dropWhile isSpace)
  let (base, l) := takeBase l
  match l.takeWhile (fun c => digitValue c < base) with
  | [] => none
  | digits => some (negative, ofDigits base digits)

/-- A decimal numeral. -/
def decimal (n : Int) : List Char :=
  if n < 0 then '-' :: Nat.toDigits 10 n.natAbs else Nat.toDigits 10 n.natAbs

theorem isDigit_bounds {c : Char} (h : c.isDigit = true) :
    '0'.toNat ≤ c.toNat ∧ c.toNat ≤ '9'.toNat := by
  simpa [Char.isDigit, UInt32.le_iff_toNat_le] using h

theorem digitValue_of_isDigit (h : c.isDigit = true) : digitValue c = c.toNat - '0'.toNat := by
  rw [digitValue, if_pos h]

theorem digitValue_lt_ten (h : c.isDigit = true) : digitValue c < 10 := by
  have hle : c.toNat ≤ 57 := (isDigit_bounds h).2
  rw [digitValue_of_isDigit h]
  change c.toNat - 48 < 10
  omega

theorem ofDigits_eq_ofDigitChars (h : ∀ c ∈ l, c.isDigit = true)
    (n : Nat) : l.foldl (fun n c => base * n + digitValue c) n = ofDigitChars base l n := by
  induction l generalizing n with
  | nil => rfl
  | cons c l ih =>
    rw [foldl_cons, ofDigitChars_cons, digitValue_of_isDigit (h c mem_cons_self),
      ih (fun d hd => h d (.tail _ hd))]

theorem isDigit_toDigits : ∀ c ∈ toDigits 10 n, c.isDigit = true :=
  fun _ => isDigit_of_mem_toDigits (by omega) (by omega)

theorem ofDigits_toDigits (n : Nat) : ofDigits 10 (toDigits 10 n) = n := by
  unfold ofDigits
  rw [ofDigits_eq_ofDigitChars isDigit_toDigits, ofDigitChars_toDigits (by omega) (by omega)]

/-- A number that is not zero does not start with the digit zero. -/
theorem head_toDigits_ne_zero (hn : n ≠ 0) : (toDigits 10 n).head? ≠ some '0' := by
  induction n using Nat.strong_induction_on with
  | _ n ih =>
    rw [toDigits_eq_if (by omega)]
    split_ifs with hlt
    · interval_cases n <;> first | exact absurd rfl hn | decide
    · rw [head?_append_of_ne_nil _ toDigits_ne_nil]
      exact ih (n / 10) (by omega) (by omega)

theorem takeBase_of_head (h : l.head? ≠ some '0') : takeBase l = (10, l) := by
  unfold takeBase
  split
  · exact absurd rfl h
  · rfl

theorem takeWhile_toDigits (n : Nat) :
    (toDigits 10 n).takeWhile (fun c => digitValue c < 10) = toDigits 10 n := by
  rw [takeWhile_eq_self_iff]
  intro c hc
  simpa using digitValue_lt_ten (isDigit_toDigits c hc)

theorem isDigit_of_mem_decimal (h : c ∈ decimal n) : c = '-' ∨ c.isDigit = true := by
  unfold decimal at h
  split at h
  · exact (mem_cons.mp h).imp_right (isDigit_toDigits c)
  · exact .inr (isDigit_toDigits c h)

theorem decimal_ne_nil (n : Int) : decimal n ≠ [] := by
  unfold decimal
  split
  · exact cons_ne_nil _ _
  · exact toDigits_ne_nil

theorem isSpace_decimal (h : c ∈ decimal n) : isSpace c = false := by
  rcases isDigit_of_mem_decimal h with rfl | hc
  · rfl
  · by_contra hspace
    simp only [isSpace, Bool.or_eq_true, decide_eq_true_eq, Bool.not_eq_false] at hspace
    rcases hspace with ((((rfl | rfl) | rfl) | rfl) | rfl) | rfl <;> cases hc

theorem dropWhile_isSpace_decimal (n : Int) : (decimal n).dropWhile isSpace = decimal n := by
  rw [dropWhile_eq_self_iff]
  intro hpos
  simp [isSpace_decimal (getElem_mem hpos)]

theorem takeSign_toDigits (n : Nat) : takeSign (toDigits 10 n) = (false, toDigits 10 n) := by
  cases h : toDigits 10 n with
  | nil => rfl
  | cons c l =>
    have hc : c.isDigit = true := isDigit_toDigits (n := n) c (by rw [h]; exact .head _)
    unfold takeSign
    split
    · rename_i heq
      cases heq
      cases hc
    · rename_i heq
      cases heq
      cases hc
    · rfl

theorem takeSign_decimal (n : Int) : takeSign (decimal n) = (decide (n < 0),
    toDigits 10 n.natAbs) := by
  unfold decimal
  split_ifs with hneg
  · simp [takeSign, hneg]
  · rw [takeSign_toDigits]
    simp [hneg]

/-- Zero is read in base eight, any other number in base ten. -/
theorem read_decimal (n : Int) : read (decimal n) = some (decide (n < 0), n.natAbs) := by
  unfold read
  rw [dropWhile_isSpace_decimal, takeSign_decimal]
  by_cases hzero : n.natAbs = 0
  · rw [hzero]
    rfl
  · simp only [takeBase_of_head (head_toDigits_ne_zero hzero), takeWhile_toDigits]
    split
    · rename_i hnil
      exact absurd hnil toDigits_ne_nil
    · rw [ofDigits_toDigits]

end Lib.Numeral
