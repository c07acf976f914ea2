/-
# PlainRequest.CommandLine.Number — numbers given on a command line

A number is a run of decimal digits, perhaps behind a plus sign, and must fit 64 bits. Of several
faults the one counts that is met first from the left.
-/

import PlainRequest.Text.Digits

namespace PlainRequest.CommandLine

open Text

/-- Why a word is no number. -/
inductive NumberFault
  | empty
  | invalidDigit
  | tooLarge
  deriving DecidableEq, Repr

/-- The text of a number fault. -/
def NumberFault.message : NumberFault → Text
  | empty => "cannot parse integer from empty string".toList
  | invalidDigit => "invalid digit found in string".toList
  | tooLarge => "number too large to fit in target type".toList

/-- The largest number. -/
def maxNumber : Nat := 18446744073709551615

/-- Read digits behind a number. -/
def readDigits (number : Nat) : Text → Except NumberFault Nat
  | [] => pure number
  | c :: rest =>
      if ! isDecimal c then throw .invalidDigit
      else
        let next := number * 10 + (digitValue? c).getD 0
        if maxNumber < next then throw .tooLarge else readDigits next rest

/-- Read a number. -/
def readNumber : Text → Except NumberFault Nat
  | [] => throw .empty
  | ['+'] => throw .invalidDigit
  | '+' :: digits => readDigits 0 digits
  | digits => readDigits 0 digits

end PlainRequest.CommandLine
