/-
# PlainRequest.Toml.Scalar — booleans, numbers, dates and times

These values are written without quotation marks, so the whole word is taken first and then read as
one of them. Underscores may stand between digits. A decimal number has no leading zero; `0x`, `0o`
and `0b` open integers of other bases, which carry no sign.
-/

import PlainRequest.Text.Digits
import PlainRequest.Toml.Value

namespace PlainRequest.Toml

open Text

/-! ## Numbers -/

/-- Digits of a base in groups between underscores; the digits alone. -/
def digitGroups? (base : Nat) (word : Text) : Option Text :=
  let groups := splitAll '_' word
  if groups.all fun group => ! group.isEmpty && group.all (isDigitOf base) then
    some groups.flatten
  else none

/-- Digits of a number that has no leading zero. -/
def wholeDigits? (word : Text) : Option Text := do
  let digits ← digitGroups? 10 word
  match digits with
  | '0' :: _ :: _ => none
  | _ => pure digits

/-- A sign, if there is one, and what follows: `true` for a minus sign. -/
def readSign : Text → Bool × Text
  | '-' :: rest => (true, rest)
  | '+' :: rest => (false, rest)
  | word => (false, word)

/-- An integer. -/
def integer? (word : Text) : Option Int :=
  match word with
  | '0' :: 'x' :: rest => (digitGroups? 16 rest).map fun digits => (digitsValue 16 digits : Int)
  | '0' :: 'o' :: rest => (digitGroups? 8 rest).map fun digits => (digitsValue 8 digits : Int)
  | '0' :: 'b' :: rest => (digitGroups? 2 rest).map fun digits => (digitsValue 2 digits : Int)
  | _ =>
      let (negative, unsigned) := readSign word
      (wholeDigits? unsigned).map fun digits =>
        if negative then - (digitsValue 10 digits : Int) else (digitsValue 10 digits : Int)

/-- The least number too large for a double: halfway from the largest finite one to the next. -/
def doubleLimit : Nat := Nat.pow 2 1024 - Nat.pow 2 970

/-- Does `digits`, with the point before its last `places` digits, times ten to the power of
`exponent`, fit a double? Far from the limit the number of digits decides. -/
def fitsDouble (digits : Text) (places : Nat) (exponent : Int) : Bool :=
  let value := digitsValue 10 digits
  let power := exponent - places
  let magnitude := ((Nat.toDigits 10 value).length : Int) + power
  if value = 0 || magnitude < 300 then true
  else if magnitude > 320 then false
  else if 0 ≤ power then value * Nat.pow 10 power.toNat < doubleLimit
  else value < doubleLimit * Nat.pow 10 (-power).toNat

/-- The exponent of a float. -/
def exponent? (word : Text) : Option Int :=
  let (negative, unsigned) := readSign word
  (digitGroups? 10 unsigned).map fun digits =>
    if negative then - (digitsValue 10 digits : Int) else (digitsValue 10 digits : Int)

/-- Cut before and behind the exponent mark. -/
def splitExponent (word : Text) : Text × Option Text :=
  match splitFirst? 'e' (lower word) with
  | some (mantissa, exponent) => (mantissa, some exponent)
  | none => (word, none)

/-- A float, and whether it fits a double. -/
def float? (word : Text) : Option Bool :=
  let unsigned := (readSign word).2
  if unsigned = "inf".toList || unsigned = "nan".toList then some true
  else do
    let (mantissa, exponentText) := splitExponent unsigned
    let exponent ← match exponentText with
      | some text => exponent? text
      | none => some 0
    match splitFirst? '.' mantissa, exponentText with
    | some (whole, fraction), _ => do
        let wholeDigits ← wholeDigits? whole
        let fractionDigits ← digitGroups? 10 fraction
        pure (fitsDouble (wholeDigits ++ fractionDigits) fractionDigits.length exponent)
    | none, some _ => do
        let digits ← wholeDigits? mantissa
        pure (fitsDouble digits 0 exponent)
    | none, none => none

/-! ## Dates and times -/

/-- A number of exactly `count` digits from `low` to `high`. -/
def fixedDigits? (count low high : Nat) (word : Text) : Option Nat := do
  let value ← natOf? 10 word
  if word.length = count ∧ low ≤ value ∧ value ≤ high then pure value else none

/-- The days of a month, in the Gregorian calendar. -/
def daysIn (year month : Nat) : Nat :=
  if month = 2 then
    if year % 4 = 0 ∧ (year % 100 ≠ 0 ∨ year % 400 = 0) then 29 else 28
  else if month = 4 ∨ month = 6 ∨ month = 9 ∨ month = 11 then 30
  else 31

/-- Is the word a date such as `1979-05-27`? -/
def isDate (word : Text) : Bool :=
  match splitAll '-' word with
  | [year, month, day] =>
      match fixedDigits? 4 0 9999 year, fixedDigits? 2 1 12 month with
      | some y, some m => (fixedDigits? 2 1 (daysIn y m) day).isSome
      | _, _ => false
  | _ => false

/-- Are the words hours, minutes and perhaps seconds, perhaps with a fraction? -/
def isTime (word : Text) : Bool :=
  match splitAll ':' word with
  | [hour, minute] => (fixedDigits? 2 0 23 hour).isSome && (fixedDigits? 2 0 59 minute).isSome
  | [hour, minute, second] =>
      let (whole, fractionReads) := match splitFirst? '.' second with
        | some (whole, fraction) => (whole, (natOf? 10 fraction).isSome)
        | none => (second, true)
      (fixedDigits? 2 0 23 hour).isSome && (fixedDigits? 2 0 59 minute).isSome
        && (fixedDigits? 2 0 60 whole).isSome && fractionReads
  | _ => false

/-- Is the word an offset such as `-07:00`, behind its sign? -/
def isOffset (word : Text) : Bool :=
  match splitAll ':' word with
  | [hour, minute] => (fixedDigits? 2 0 23 hour).isSome && (fixedDigits? 2 0 59 minute).isSome
  | _ => false

/-- Is the word a time, perhaps with `Z` or an offset behind it? -/
def isZonedTime (word : Text) : Bool :=
  let time := word.takeWhile (! "Zz+-".toList.contains ·)
  isTime time &&
    match word.dropWhile (! "Zz+-".toList.contains ·) with
    | [] => true
    | mark :: offset => if mark = 'Z' ∨ mark = 'z' then offset.isEmpty else isOffset offset

/-- Is the word a date, a time, or a date with a time? -/
def isDatetime (word : Text) : Bool :=
  isDate word || isTime word ||
    (isDate (word.take 10) &&
      match word.drop 10 with
      | mark :: time => "Tt ".toList.contains mark && isZonedTime time
      | [] => false)

/-! ## Any of them -/

/-- The value of a word. -/
def ofWord? (word : Text) : Option Toml :=
  if word = "true".toList then some (.boolean true)
  else if word = "false".toList then some (.boolean false)
  else
    match integer? word, float? word with
    | some value, _ => some (.integer value)
    | none, some inRange => some (.float inRange)
    | none, none => if isDatetime word then some .datetime else none

end PlainRequest.Toml
