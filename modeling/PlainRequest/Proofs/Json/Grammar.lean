/-
# PlainRequest.Proofs.Json.Grammar — the tokens of JSON, as they may be spelled

Relations between texts and what they stand for, from the characters of a string up to a run of
tokens, with no word about how a text is read. A character of a string may be spelled in many ways and
a number in a few, so the relations are not functions; a number keeps its digits and only its exponent
is brought into one form.
-/

import PlainRequest.Json.Token
import Mathlib.Algebra.Group.Nat.Defs

namespace PlainRequest.Json

open Text

/-! ## Strings -/

/-- **`HexDigits digits value`** — hexadecimal digits, in either case, and their value. -/
inductive HexDigits : Text → Nat → Prop
  | nil : HexDigits [] 0
  | snoc {digits : Text} {value : Nat} {c : Char} {n : Nat} (h : HexDigits digits value)
      (hc : digitValue? c = some n) : HexDigits (digits ++ [c]) (value * 16 + n)

/-- **`SpellsUnit digits unit`** — four hexadecimal digits. -/
def SpellsUnit (digits : Text) (unit : Nat) : Prop :=
  digits.length = 4 ∧ HexDigits digits unit

theorem lt_of_digitValue? {c : Char} {n : Nat} (h : digitValue? c = some n) : n < 16 := by
  have hle : ∀ {d : Char}, c ≤ d → c.toNat ≤ d.toNat := fun hd => hd
  unfold digitValue? at h
  split at h
  · next hc =>
      have hlast : c.toNat ≤ 57 := hle hc.2
      obtain rfl := Option.some.inj h
      show c.toNat - 48 < 16
      omega
  split at h
  · next hc =>
      have hlast : c.toNat ≤ 102 := hle hc.2
      obtain rfl := Option.some.inj h
      show c.toNat - 97 + 10 < 16
      omega
  split at h
  · next hc =>
      have hlast : c.toNat ≤ 70 := hle hc.2
      obtain rfl := Option.some.inj h
      show c.toNat - 65 + 10 < 16
      omega
  · simp at h

theorem HexDigits.lt {digits : Text} {value : Nat} (h : HexDigits digits value) :
    value < 16 ^ digits.length := by
  induction h with
  | nil => simp
  | snoc _ hc ih =>
      have hn := lt_of_digitValue? hc
      rw [List.length_append, List.length_singleton, pow_succ]
      omega

theorem SpellsUnit.lt {digits : Text} {unit : Nat} (h : SpellsUnit digits unit) :
    unit < 0x10000 := by
  obtain ⟨hlength, hdigits⟩ := h
  have hlt := hdigits.lt
  rwa [hlength] at hlt

/-- The letters that may follow a backslash, and the characters that they mean there. -/
def letterEscapes : List (Char × Char) :=
  [('"', '"'), ('\\', '\\'), ('/', '/'), ('b', '\x08'), ('f', '\x0c'), ('n', '\n'), ('r', '\r'),
    ('t', '\t')]

/-- **`SpellsChar spelled c`** — between quotation marks, the text stands for the character. -/
inductive SpellsChar : Text → Char → Prop
  /-- A character stands for itself. -/
  | plain {c : Char} (hquote : c ≠ '"') (hback : c ≠ '\\') (hprintable : 0x20 ≤ c.toNat) :
      SpellsChar [c] c
  /-- An escape of one letter. -/
  | letter {e c : Char} (h : (e, c) ∈ letterEscapes) : SpellsChar ['\\', e] c
  /-- The code point in four digits. -/
  | unit {digits : Text} {c : Char} (h : SpellsUnit digits c.toNat) :
      SpellsChar ('\\' :: 'u' :: digits) c
  /-- Past U+FFFF, a high surrogate and a low one, ten bits in each. -/
  | surrogates {first second : Text} {high low : Nat} {c : Char} (hfirst : SpellsUnit first high)
      (hsecond : SpellsUnit second low) (hhigh : 0xD800 ≤ high ∧ high ≤ 0xDBFF)
      (hlow : 0xDC00 ≤ low ∧ low ≤ 0xDFFF)
      (h : c.toNat = 0x10000 + (high - 0xD800) * 0x400 + (low - 0xDC00)) :
      SpellsChar ('\\' :: 'u' :: first ++ '\\' :: 'u' :: second) c

/-- **`SpellsText spelled text`** — the characters of a string, one after another. -/
inductive SpellsText : Text → Text → Prop
  | nil : SpellsText [] []
  | cons {spelled rest text : Text} {c : Char} (h : SpellsChar spelled c)
      (hrest : SpellsText rest text) : SpellsText (spelled ++ rest) (c :: text)

/-! ## Numbers -/

/-- Decimal digits, at least one. -/
def IsDigits (digits : Text) : Prop := digits ≠ [] ∧ ∀ c ∈ digits, isDecimal c = true

/-- The digits before the point: a zero, or digits that begin with another. -/
inductive IsWhole : Text → Prop
  | zero : IsWhole ['0']
  | digits {c : Char} {digits : Text} (hc : c ≠ '0') (h : IsDigits (c :: digits)) :
      IsWhole (c :: digits)

/-- Nothing, or a point and the digits behind it. -/
inductive IsPlaces : Text → Prop
  | none : IsPlaces []
  | point {digits : Text} (h : IsDigits digits) : IsPlaces ('.' :: digits)

/-- **`SpellsExponent exponent power`** — nothing, or an exponent; `power` is the same with a small
`e` and with its sign. -/
inductive SpellsExponent : Text → Text → Prop
  | none : SpellsExponent [] []
  | unsigned {e : Char} {digits : Text} (he : e = 'e' ∨ e = 'E') (h : IsDigits digits) :
      SpellsExponent (e :: digits) ('e' :: '+' :: digits)
  | signed {e sign : Char} {digits : Text} (he : e = 'e' ∨ e = 'E')
      (hsign : sign = '+' ∨ sign = '-') (h : IsDigits digits) :
      SpellsExponent (e :: sign :: digits) ('e' :: sign :: digits)

/-- **`SpellsNumber spelled spelling`** — the text is a number; `spelling` differs from it in the
exponent only. -/
inductive SpellsNumber : Text → Text → Prop
  | parts {sign whole places exponent power : Text} (hsign : sign = [] ∨ sign = ['-'])
      (hwhole : IsWhole whole) (hplaces : IsPlaces places)
      (hexponent : SpellsExponent exponent power) :
      SpellsNumber (sign ++ whole ++ places ++ exponent) (sign ++ whole ++ places ++ power)

/-! ## Texts -/

/-- **`SpellsToken spelled token`** — the text is this token, and nothing more. -/
inductive SpellsToken : Text → Token → Prop
  | openArray : SpellsToken ['['] .openArray
  | closeArray : SpellsToken [']'] .closeArray
  | openObject : SpellsToken ['{'] .openObject
  | closeObject : SpellsToken ['}'] .closeObject
  | comma : SpellsToken [','] .comma
  | colon : SpellsToken [':'] .colon
  | null : SpellsToken "null".toList .null
  | true : SpellsToken "true".toList (.bool true)
  | false : SpellsToken "false".toList (.bool false)
  | number {spelled spelling : Text} (h : SpellsNumber spelled spelling) :
      SpellsToken spelled (.number spelling)
  | string {spelled text : Text} (h : SpellsText spelled text) :
      SpellsToken ('"' :: (spelled ++ ['"'])) (.string text)

/-- **`SpellsTokens text tokens`** — the text is these tokens, with gaps where one likes. -/
inductive SpellsTokens : Text → List Token → Prop
  | nil : SpellsTokens [] []
  | gap {c : Char} {rest : Text} {tokens : List Token} (h : isGap c = true)
      (hrest : SpellsTokens rest tokens) : SpellsTokens (c :: rest) tokens
  | token {spelled rest : Text} {token : Token} {tokens : List Token}
      (h : SpellsToken spelled token) (hrest : SpellsTokens rest tokens) :
      SpellsTokens (spelled ++ rest) (token :: tokens)

end PlainRequest.Json
