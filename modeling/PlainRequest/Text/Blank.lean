/-
# PlainRequest.Text.Blank — whitespace, and texts of nothing else

White space is the Unicode property of that name: twenty-five characters, among them the no-break
space U+00A0 and the ideographic space U+3000, but neither the zero-width space U+200B nor the byte
order mark U+FEFF.
-/

import PlainRequest.Text.Basic

namespace PlainRequest.Text

/-- The ranges of the Unicode property `White_Space`, first and last code point. -/
def whiteSpaceRanges : List (Nat × Nat) :=
  [(0x09, 0x0D), (0x20, 0x20), (0x85, 0x85), (0xA0, 0xA0), (0x1680, 0x1680), (0x2000, 0x200A),
    (0x2028, 0x2029), (0x202F, 0x202F), (0x205F, 0x205F), (0x3000, 0x3000)]

/-- Is the character white space? -/
def isSpace (c : Char) : Bool :=
  whiteSpaceRanges.any fun (first, last) => first ≤ c.toNat && c.toNat ≤ last

/-- Is the text empty or white space throughout? -/
def isBlank (text : Text) : Bool := text.all isSpace

/-- The text without the white space it starts with. -/
def trimStart (text : Text) : Text := text.dropWhile isSpace

/-- The text without the white space it ends with. -/
def trimEnd (text : Text) : Text := (text.reverse.dropWhile isSpace).reverse

/-- The text without the white space around it. -/
def trim (text : Text) : Text := trimStart (trimEnd text)

/-- Trimming the front leaves nothing exactly when nothing but white space was there. -/
theorem trimStart_eq_nil_iff {text : Text} : trimStart text = [] ↔ isBlank text = true := by
  unfold trimStart isBlank
  induction text with
  | nil => simp
  | cons c rest ih => by_cases h : isSpace c = true <;> simp [h, ih]

/-- A text that does not start with white space is not shortened at the front. -/
theorem trimStart_of_head {c : Char} {text : Text} (h : isSpace c = false) :
    trimStart (c :: text) = c :: text := by
  simp [trimStart, h]

end PlainRequest.Text
