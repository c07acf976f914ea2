/-
# PlainRequest.Text.Digits — digits and numerals

Digits up to base sixteen, and the numerals that the formats of this library read: a run of digits
is a number only as a whole, and every character of it must be a digit of the base.
-/

import PlainRequest.Text.Basic

namespace PlainRequest.Text

/-- The value of a digit `0`–`9`, `a`–`f`, `A`–`F`. -/
def digitValue? (c : Char) : Option Nat :=
  if '0' ≤ c ∧ c ≤ '9' then some (c.toNat - '0'.toNat)
  else if 'a' ≤ c ∧ c ≤ 'f' then some (c.toNat - 'a'.toNat + 10)
  else if 'A' ≤ c ∧ c ≤ 'F' then some (c.toNat - 'A'.toNat + 10)
  else none

/-- Is `c` a digit of the base? -/
def isDigitOf (base : Nat) (c : Char) : Bool := (digitValue? c).any (· < base)

/-- Is `c` one of `0`–`9`? -/
def isDecimal (c : Char) : Bool := isDigitOf 10 c

/-- Is `c` one of `0`–`9`, `a`–`f`, `A`–`F`? -/
def isHex (c : Char) : Bool := isDigitOf 16 c

/-- The number that the digits stand for; characters that are no digits count as zero. -/
def digitsValue (base : Nat) (digits : Text) : Nat :=
  digits.foldl (fun n c => n * base + (digitValue? c).getD 0) 0

/-- The number a non-empty run of digits of the base stands for. -/
def natOf? (base : Nat) (digits : Text) : Option Nat :=
  if ! digits.isEmpty && digits.all (isDigitOf base) then some (digitsValue base digits) else none

/-- The hexadecimal digit for a number below sixteen, in lower case. -/
def hexDigit (n : Nat) : Char :=
  if n < 10 then Char.ofNat (n + '0'.toNat) else Char.ofNat (n - 10 + 'a'.toNat)

/-- The hexadecimal digit for a number below sixteen, in upper case. -/
def hexDigitUpper (n : Nat) : Char :=
  if n < 10 then Char.ofNat (n + '0'.toNat) else Char.ofNat (n - 10 + 'A'.toNat)

/-- Exactly four lower-case hexadecimal digits, for a number below 65536. -/
def hexFour (n : Nat) : Text :=
  [hexDigit (n / 4096 % 16), hexDigit (n / 256 % 16), hexDigit (n / 16 % 16), hexDigit (n % 16)]

/-- A decimal digit is one of ten characters. -/
theorem mem_of_isDecimal {c : Char} (h : isDecimal c = true) : c ∈ "0123456789".toList := by
  have hrange : '0' ≤ c ∧ c ≤ '9' := by
    apply Classical.byContradiction
    intro hout
    simp only [isDecimal, isDigitOf, digitValue?, if_neg hout] at h
    split at h
    · simp only [Option.any_some, decide_eq_true_eq] at h
      omega
    split at h
    · simp only [Option.any_some, decide_eq_true_eq] at h
      omega
    · simp at h
  have hlow : 48 ≤ c.toNat := hrange.1
  have hhigh : c.toNat ≤ 57 := hrange.2
  have hall : ∀ n : Fin 10, Char.ofNat (48 + n) ∈ "0123456789".toList := by decide
  have hmem := hall ⟨c.toNat - 48, by omega⟩
  rwa [show 48 + (c.toNat - 48) = c.toNat by omega, Char.ofNat_toNat] at hmem

/-- A hexadecimal digit reads back as its value, in either case. -/
theorem digitValue?_hexDigit {n : Nat} (h : n < 16) :
    digitValue? (hexDigit n) = some n ∧ digitValue? (hexDigitUpper n) = some n := by
  have all : ∀ m : Fin 16, digitValue? (hexDigit m) = some m.val ∧
      digitValue? (hexDigitUpper m) = some m.val := by decide
  exact all ⟨n, h⟩

end PlainRequest.Text
