/-
# PlainRequest.Url.Domain — domain names in their ASCII form

A domain name is a row of labels with dots between them. Letters are taken in lower case, fullwidth
forms as the characters they are forms of, and characters without a width of their own are passed
over. A label with characters outside ASCII is then written in Punycode behind `xn--`, and a label
that starts with `xn--` must be such a form of a label in lower case.

Case is known for the Latin, Greek, Cyrillic and Armenian letters that come in pairs; any other
character that a name can hold stands for itself.
-/

import PlainRequest.Text.Percent
import PlainRequest.Url.Punycode

namespace PlainRequest.Domain

open Text

/-- The code points of one kind: from the first to the last, each as far from the one before. -/
structure CodeRange where
  first : Nat
  last : Nat
  step : Nat := 1

/-- Is the code point in the range? -/
def CodeRange.contains (range : CodeRange) (code : Nat) : Bool :=
  range.first ≤ code && code ≤ range.last && (code - range.first) % range.step = 0

/-- Capital letters, and how far behind each its small letter stands. -/
def capitals : List (CodeRange × Nat) :=
  [(⟨0x41, 0x5A, 1⟩, 32), (⟨0xC0, 0xD6, 1⟩, 32), (⟨0xD8, 0xDE, 1⟩, 32), (⟨0x100, 0x12E, 2⟩, 1),
    (⟨0x134, 0x136, 2⟩, 1), (⟨0x139, 0x13D, 2⟩, 1), (⟨0x141, 0x147, 2⟩, 1),
    (⟨0x14A, 0x176, 2⟩, 1), (⟨0x179, 0x17D, 2⟩, 1), (⟨0x1A0, 0x1A4, 2⟩, 1),
    (⟨0x1AF, 0x1AF, 1⟩, 1), (⟨0x1CD, 0x1DB, 2⟩, 1), (⟨0x1DE, 0x1EE, 2⟩, 1),
    (⟨0x1F8, 0x21E, 2⟩, 1), (⟨0x222, 0x232, 2⟩, 1), (⟨0x386, 0x386, 1⟩, 38),
    (⟨0x388, 0x38A, 1⟩, 37), (⟨0x38C, 0x38C, 1⟩, 64), (⟨0x38E, 0x38F, 1⟩, 63),
    (⟨0x391, 0x3A1, 1⟩, 32), (⟨0x3A3, 0x3AB, 1⟩, 32), (⟨0x400, 0x40F, 1⟩, 80),
    (⟨0x410, 0x42F, 1⟩, 32), (⟨0x460, 0x480, 2⟩, 1), (⟨0x48A, 0x4BE, 2⟩, 1),
    (⟨0x4C1, 0x4CD, 2⟩, 1), (⟨0x4D0, 0x52E, 2⟩, 1), (⟨0x531, 0x556, 1⟩, 48),
    (⟨0x1E00, 0x1E94, 2⟩, 1), (⟨0x1EA0, 0x1EFE, 2⟩, 1)]

/-- The small letter of a capital, or the code point itself. -/
def smallOf (code : Nat) : Nat :=
  match capitals.find? fun (range, _) => range.contains code with
  | some (_, distance) => code + distance
  | none => code

/-- The fullwidth forms of the ASCII characters. -/
def fullwidth : CodeRange := ⟨0xFF01, 0xFF5E, 1⟩

/-- Code points that are passed over. -/
def ignored : List CodeRange :=
  [⟨0xAD, 0xAD, 1⟩, ⟨0x34F, 0x34F, 1⟩, ⟨0x180B, 0x180D, 1⟩, ⟨0x200B, 0x200B, 1⟩,
    ⟨0x2060, 0x2060, 1⟩, ⟨0x2064, 0x2064, 1⟩, ⟨0xFE00, 0xFE0F, 1⟩, ⟨0xFEFF, 0xFEFF, 1⟩]

/-- Code points that no name can hold: controls, spaces, marks of direction, private use and
non-characters. -/
def refused : List CodeRange :=
  [⟨0x80, 0xA0, 1⟩, ⟨0x1680, 0x1680, 1⟩, ⟨0x2000, 0x200A, 1⟩, ⟨0x200C, 0x200F, 1⟩,
    ⟨0x2028, 0x202F, 1⟩, ⟨0x205F, 0x205F, 1⟩, ⟨0x2061, 0x2063, 1⟩, ⟨0x2065, 0x206F, 1⟩,
    ⟨0x3000, 0x3000, 1⟩, ⟨0xE000, 0xF8FF, 1⟩, ⟨0xFDD0, 0xFDEF, 1⟩, ⟨0xFFF0, 0xFFFF, 1⟩,
    ⟨0x1FFFE, 0x1FFFF, 1⟩, ⟨0xE0000, 0x10FFFF, 1⟩]

/-- The dots of other scripts. -/
def otherDots : List Nat := [0x3002, 0xFF0E, 0xFF61]

/-- What a character becomes in a name: a character, or nothing. -/
def mapChar (c : Char) : Text :=
  let code := c.toNat
  if otherDots.contains code then ['.']
  else if ignored.any (·.contains code) then []
  else if fullwidth.contains code then [Char.ofNat (smallOf (code - 0xFF01 + 0x21))]
  else [Char.ofNat (smallOf code)]

/-- Can a name hold the character, once it is mapped? -/
def isAllowed (c : Char) : Bool :=
  if c.toNat < 0x80 then isGraphic c && ! "%#/:<>?@[\\]^|".toList.contains c
  else ! refused.any (·.contains c.toNat)

/-- What a label in Punycode starts with. -/
def punycodeMark : Text := "xn--".toList

/-- Does a Punycode form stand for a label that needs it and is mapped already? -/
def isPunycode (form : Text) : Bool :=
  match Punycode.decode? form with
  | none => false
  | some label => ! isAscii label && label.flatMap mapChar = label && label.all isAllowed

/-- The ASCII form of a mapped label. -/
def labelToAscii? (label : Text) : Option Text :=
  match stripPrefix? punycodeMark label with
  | some form => if isAscii form && isPunycode form then some label else none
  | none => some (if isAscii label then label else punycodeMark ++ Punycode.encode label)

/-- The ASCII form of a name whose bytes may be percent-encoded. -/
def toAscii? (name : Text) : Option Text := do
  let decoded ← ofUtf8? (percentDecode name)
  let mapped := decoded.flatMap mapChar
  if ! mapped.all isAllowed then none
  else
    let labels ← (splitAll '.' mapped).mapM labelToAscii?
    pure (joinWith ['.'] labels)

end PlainRequest.Domain
