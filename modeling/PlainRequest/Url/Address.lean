/-
# PlainRequest.Url.Address — IP addresses in hosts

A host whose last label is a number must be an IPv4 address. Its numbers may be decimal, octal with
a leading zero or hexadecimal with a leading `0x`; there may be fewer than four, the last one then
filling the bytes that are left.

An IPv6 address has eight pieces of up to four hexadecimal digits. The last two may be written as an
IPv4 address of four decimal numbers, and one run of zero pieces may be left out between two colons.
-/

import PlainRequest.Url.Basic

namespace PlainRequest.UrlHost

open Text

/-! ## IPv4 -/

/-- The digits of a number and their base: behind `0x`, behind a zero, or from the start. -/
def numberDigits : Text → Text × Nat
  | '0' :: 'x' :: digits | '0' :: 'X' :: digits => (digits, 16)
  | '0' :: c :: digits => (c :: digits, 8)
  | digits => (digits, 10)

/-- A number of an IPv4 address. Behind `0x` there may be no digit. -/
def ipv4Number? (text : Text) : Option Nat :=
  let (digits, base) := numberDigits text
  if text.isEmpty || ! digits.all (isDigitOf base) then none else some (digitsValue base digits)

/-- The labels of a host, without the empty one behind a dot at the end. -/
def labels (host : Text) : List Text :=
  let labels := splitAll '.' host
  if labels.getLast? = some [] then labels.dropLast else labels

/-- Is the last label a number? -/
def endsInNumber (host : Text) : Bool :=
  match (labels host).getLast? with
  | none => false
  | some last => ! last.isEmpty && last.all isDecimal || (ipv4Number? last).isSome

/-- The address that numbers make: each is a byte but the last, which fills what is left. -/
def ipv4OfNumbers? (numbers : List Nat) : Option Nat :=
  match numbers.getLast? with
  | none => none
  | some last =>
      let bytes := numbers.dropLast
      let room := Nat.pow 256 (4 - bytes.length)
      if bytes.length < 4 ∧ bytes.all (· < 256) ∧ last < room then
        some (bytes.foldl (· * 256 + ·) 0 * room + last)
      else none

/-- Read a host as an IPv4 address. -/
def ipv4? (host : Text) : Option Nat := do
  let numbers ← (labels host).mapM ipv4Number?
  ipv4OfNumbers? numbers

/-! ## IPv6 -/

/-- One byte in decimal, without leading zeros. -/
def decimalByte? (text : Text) : Option Nat := do
  let value ← natOf? 10 text
  if value < 256 ∧ (text.length = 1 ∨ text.head? ≠ some '0') then pure value else none

/-- The two pieces that an IPv4 address makes. -/
def ipv4Pieces? (text : Text) : Option (List Nat) := do
  let bytes ← (splitAll '.' text).mapM decimalByte?
  match bytes with
  | [a, b, c, d] => pure [a * 256 + b, c * 256 + d]
  | _ => none

/-- One piece: up to four hexadecimal digits. -/
def piece? (text : Text) : Option Nat := if text.length ≤ 4 then natOf? 16 text else none

/-- Pieces with a colon between them; with `dotted` the last two may be an IPv4 address. -/
def pieces? (dotted : Bool) : List Text → Option (List Nat)
  | [] => some []
  | [last] =>
      if dotted && last.contains '.' then ipv4Pieces? last else (piece? last).map fun n => [n]
  | first :: rest => do
      let n ← piece? first
      let ns ← pieces? dotted rest
      pure (n :: ns)

/-- A run of pieces, perhaps empty. -/
def run? (dotted : Bool) (text : Text) : Option (List Nat) :=
  if text.isEmpty then some [] else pieces? dotted (splitAll ':' text)

/-- Cut at the first two colons that stand together. -/
def cutDoubleColon? : Text → Option (Text × Text)
  | [] => none
  | ':' :: ':' :: rest => some ([], rest)
  | c :: rest => (cutDoubleColon? rest).map fun (before, after) => (c :: before, after)

/-- Read what stands between brackets as an IPv6 address. -/
def ipv6? (text : Text) : Option (List Nat) :=
  match cutDoubleColon? text with
  | none => do
      let pieces ← run? true text
      if pieces.length = 8 then pure pieces else none
  | some (before, after) => do
      let front ← run? false before
      let back ← run? true after
      let count := front.length + back.length
      if count < 8 then pure (front ++ List.replicate (8 - count) 0 ++ back) else none

end PlainRequest.UrlHost
