/-
# PlainRequest.Json.Token — the tokens of a JSON text

Space, tab, line feed and carriage return separate tokens and mean nothing else. A string token holds
the text it stands for, escapes undone. A number token holds the number's spelling with its exponent,
if it has one, written as `e`, a sign and digits; everything else of the spelling is kept, also the
minus sign of a zero: `-0` is the number `-0`, and not `0`.
-/

import PlainRequest.Text.Digits

namespace PlainRequest.Json

open Text

/-- A token of a JSON text. -/
inductive Token
  | openArray
  | closeArray
  | openObject
  | closeObject
  | comma
  | colon
  | null
  | bool (value : Bool)
  | number (spelling : Text)
  | string (text : Text)
  deriving DecidableEq, Repr

/-- Does the character only separate tokens? -/
def isGap (c : Char) : Bool := c = ' ' || c = '\n' || c = '\t' || c = '\r'

/-! ## Numbers -/

/-- The decimal digits at the start, and what follows them; there must be one. -/
def readDigits? (text : Text) : Option (Text × Text) :=
  let digits := text.takeWhile isDecimal
  if digits.isEmpty then none else some (digits, text.dropWhile isDecimal)

/-- The digits before the point. A zero stands alone. -/
def readWhole? : Text → Option (Text × Text)
  | '0' :: rest => some (['0'], rest)
  | text => readDigits? text

/-- The point and the digits behind it, or nothing. -/
def readFraction? : Text → Option (Text × Text)
  | '.' :: rest => (readDigits? rest).map fun (digits, left) => ('.' :: digits, left)
  | text => some ([], text)

/-- The sign of an exponent, a plus sign if none is written. -/
def readSign : Text → Char × Text
  | '+' :: rest => ('+', rest)
  | '-' :: rest => ('-', rest)
  | text => ('+', text)

/-- The exponent, written with a small `e` and a sign, or nothing. -/
def readExponent? : Text → Option (Text × Text)
  | c :: rest =>
      if c = 'e' ∨ c = 'E' then
        (readDigits? (readSign rest).2).map fun (digits, left) =>
          ('e' :: (readSign rest).1 :: digits, left)
      else some ([], c :: rest)
  | [] => some ([], [])

/-- The minus sign, or nothing. -/
def readMinus : Text → Text × Text
  | '-' :: rest => (['-'], rest)
  | text => ([], text)

/-- The number at the start of a text: its spelling and what follows. Nothing is computed, so that the
spelling of a number is never that of another one: `-0` stays `-0`, and `1.0` stays `1.0`. -/
def readNumber? (text : Text) : Option (Text × Text) := do
  let (whole, afterWhole) ← readWhole? (readMinus text).2
  let (fraction, afterFraction) ← readFraction? afterWhole
  let (exponent, left) ← readExponent? afterFraction
  pure ((readMinus text).1 ++ whole ++ fraction ++ exponent, left)

/-- The spelling of a text that is a number and nothing more. -/
def numberOf? (text : Text) : Option Text :=
  match readNumber? text with
  | some (spelling, []) => some spelling
  | _ => none

/-! ## Strings -/

/-- Where the reader of a string is. -/
inductive StringMode
  /-- Between characters. -/
  | plain
  /-- Behind a backslash. -/
  | escape
  /-- In a `\u` escape: the high surrogate before it, if there was one; the value of the digits so
  far; and how many digits are still to come. -/
  | unit (high : Option Nat) (value missing : Nat)
  /-- Behind the escape of a high surrogate, where a backslash must come. -/
  | pair (high : Nat)
  /-- Behind that backslash, where a `u` must come. -/
  | pairEscape (high : Nat)
  deriving DecidableEq, Repr

/-- The character that a one-letter escape stands for. -/
def escaped? (c : Char) : Option Char :=
  if c = '"' ∨ c = '\\' ∨ c = '/' then some c
  else if c = 'b' then some '\x08'
  else if c = 'f' then some '\x0c'
  else if c = 'n' then some '\n'
  else if c = 'r' then some '\r'
  else if c = 't' then some '\t'
  else none

/-- What four hexadecimal digits mean: a character, a high surrogate whose partner must follow, or
nothing that may stand there. -/
inductive Unit16
  | character (c : Char)
  | high (value : Nat)
  | misplaced

/-- The meaning of the code unit `value` behind the high surrogate `high`, if there was one. -/
def unit16 (high : Option Nat) (value : Nat) : Unit16 :=
  match high with
  | none =>
      if 0xDC00 ≤ value ∧ value ≤ 0xDFFF then .misplaced
      else if 0xD800 ≤ value ∧ value ≤ 0xDBFF then .high value
      else .character (Char.ofNat value)
  | some first =>
      if 0xDC00 ≤ value ∧ value ≤ 0xDFFF then
        .character (Char.ofNat (0x10000 + (first - 0xD800) * 0x400 + (value - 0xDC00)))
      else .misplaced

/-- Put a character in front of what was read. -/
def pushChar (c : Char) (read : Option (Text × Text)) : Option (Text × Text) :=
  read.map fun (text, left) => (c :: text, left)

/-- Read a string from behind its opening quotation mark: the text it stands for and what follows
the closing mark. -/
def readString? : StringMode → Text → Option (Text × Text)
  | _, [] => none
  | .plain, c :: rest =>
      if c = '"' then some ([], rest)
      else if c = '\\' then readString? .escape rest
      else if c.toNat < 0x20 then none
      else pushChar c (readString? .plain rest)
  | .escape, c :: rest =>
      if c = 'u' then readString? (.unit none 0 4) rest
      else
        match escaped? c with
        | some e => pushChar e (readString? .plain rest)
        | none => none
  | .unit high value missing, c :: rest =>
      match digitValue? c with
      | none => none
      | some digit =>
          let value := value * 16 + digit
          if missing ≤ 1 then
            match unit16 high value with
            | .character decoded => pushChar decoded (readString? .plain rest)
            | .high first => readString? (.pair first) rest
            | .misplaced => none
          else readString? (.unit high value (missing - 1)) rest
  | .pair high, c :: rest => if c = '\\' then readString? (.pairEscape high) rest else none
  | .pairEscape high, c :: rest =>
      if c = 'u' then readString? (.unit (some high) 0 4) rest else none

/-! ## Tokens -/

/-- The token that is one mark. -/
def mark? (c : Char) : Option Token :=
  if c = '[' then some .openArray
  else if c = ']' then some .closeArray
  else if c = '{' then some .openObject
  else if c = '}' then some .closeObject
  else if c = ',' then some .comma
  else if c = ':' then some .colon
  else none

/-- The rest of the word that a letter opens, and the token for the whole word. -/
def word? (c : Char) : Option (Text × Token) :=
  if c = 'n' then some ("ull".toList, .null)
  else if c = 't' then some ("rue".toList, .bool true)
  else if c = 'f' then some ("alse".toList, .bool false)
  else none

/-- The token at the start of a text, and what follows it. -/
def next? : Text → Option (Token × Text)
  | [] => none
  | c :: rest =>
      match mark? c, word? c with
      | some token, _ => some (token, rest)
      | none, some (others, token) => (stripPrefix? others rest).map fun left => (token, left)
      | none, none =>
          if c = '"' then (readString? .plain rest).map fun (text, left) => (.string text, left)
          else (readNumber? (c :: rest)).map fun (spelling, left) => (.number spelling, left)

/-! ## Every token takes at least one character -/

theorem length_readString? {mode : StringMode} {text read left : Text}
    (h : readString? mode text = some (read, left)) : left.length < text.length := by
  induction text generalizing mode read with
  | nil => cases mode <;> simp [readString?] at h
  | cons c rest ih =>
      have push : ∀ {e : Char} {mode : StringMode},
          pushChar e (readString? mode rest) = some (read, left) →
            left.length < (c :: rest).length := by
        intro e mode hpush
        obtain ⟨⟨r, l⟩, hr, heq⟩ := Option.map_eq_some_iff.mp hpush
        simp only [Prod.mk.injEq] at heq
        obtain ⟨-, rfl⟩ := heq
        exact Nat.lt_succ_of_lt (ih hr)
      have keep : ∀ {mode : StringMode}, readString? mode rest = some (read, left) →
          left.length < (c :: rest).length := fun hr => Nat.lt_succ_of_lt (ih hr)
      cases mode with
      | plain =>
          simp only [readString?] at h
          split at h
          · simp_all
          split at h
          · exact keep h
          split at h
          · simp at h
          · exact push h
      | escape =>
          simp only [readString?] at h
          split at h
          · exact keep h
          split at h
          · exact push h
          · simp at h
      | unit high value missing =>
          simp only [readString?] at h
          split at h
          · simp at h
          split at h
          · split at h
            · exact push h
            · exact keep h
            · simp at h
          · exact keep h
      | pair high =>
          simp only [readString?] at h
          split at h
          · exact keep h
          · simp at h
      | pairEscape high =>
          simp only [readString?] at h
          split at h
          · exact keep h
          · simp at h

theorem length_readDigits? {text digits left : Text}
    (h : readDigits? text = some (digits, left)) : left.length < text.length := by
  simp only [readDigits?] at h
  split at h
  · simp at h
  · next hne =>
      simp only [Option.some.injEq, Prod.mk.injEq] at h
      obtain ⟨rfl, rfl⟩ := h
      cases text with
      | nil => simp at hne
      | cons c rest =>
          simp only [List.dropWhile_cons]
          split
          · exact Nat.lt_succ_of_le (length_dropWhile_le _ rest)
          · next hc => simp [hc] at hne

theorem length_readWhole? {text digits left : Text}
    (h : readWhole? text = some (digits, left)) : left.length < text.length := by
  unfold readWhole? at h
  split at h
  · simp_all
  · exact length_readDigits? h

theorem length_readFraction? {text digits left : Text}
    (h : readFraction? text = some (digits, left)) : left.length ≤ text.length := by
  unfold readFraction? at h
  split at h
  · obtain ⟨⟨d, l⟩, hd, heq⟩ := Option.map_eq_some_iff.mp h
    simp only [Prod.mk.injEq] at heq
    obtain ⟨-, rfl⟩ := heq
    have := length_readDigits? hd
    simp only [List.length_cons]
    omega
  · simp_all

theorem length_readSign (text : Text) : (readSign text).2.length ≤ text.length := by
  unfold readSign
  split <;> simp

theorem length_readExponent? {text digits left : Text}
    (h : readExponent? text = some (digits, left)) : left.length ≤ text.length := by
  unfold readExponent? at h
  split at h
  · next c rest =>
      split at h
      · obtain ⟨⟨d, l⟩, hd, heq⟩ := Option.map_eq_some_iff.mp h
        simp only [Prod.mk.injEq] at heq
        obtain ⟨-, rfl⟩ := heq
        have := length_readDigits? hd
        have := length_readSign rest
        simp only [List.length_cons]
        omega
      · simp_all
  · simp_all

theorem length_readNumber? {text spelling left : Text}
    (h : readNumber? text = some (spelling, left)) : left.length < text.length := by
  simp only [readNumber?, Option.bind_eq_bind, Option.bind_eq_some_iff, Option.pure_def,
    Option.some.injEq, Prod.mk.injEq, Prod.exists] at h
  obtain ⟨whole, w, hw, fraction, f, hf, exponent, e, he, -, rfl⟩ := h
  have h1 := length_readWhole? hw
  have h2 := length_readFraction? hf
  have h3 := length_readExponent? he
  have h4 : (readMinus text).2.length ≤ text.length := by
    unfold readMinus
    split <;> simp
  omega

theorem length_next? {text left : Text} {token : Token} (h : next? text = some (token, left)) :
    left.length < text.length := by
  unfold next? at h
  split at h
  · simp at h
  split at h
  · simp only [Option.some.injEq, Prod.mk.injEq] at h
    simp [← h.2]
  · obtain ⟨l, hl, heq⟩ := Option.map_eq_some_iff.mp h
    simp only [Prod.mk.injEq] at heq
    obtain ⟨-, rfl⟩ := heq
    exact Nat.lt_succ_of_le (length_stripPrefix? hl)
  · split at h
    · obtain ⟨⟨r, l⟩, hr, heq⟩ := Option.map_eq_some_iff.mp h
      simp only [Prod.mk.injEq] at heq
      obtain ⟨-, rfl⟩ := heq
      exact Nat.lt_succ_of_lt (length_readString? hr)
    · obtain ⟨⟨r, l⟩, hr, heq⟩ := Option.map_eq_some_iff.mp h
      simp only [Prod.mk.injEq] at heq
      obtain ⟨-, rfl⟩ := heq
      exact length_readNumber? hr

/-- The tokens of a text, or nothing if some part of it is no token. -/
def tokens? : Text → Option (List Token)
  | [] => some []
  | c :: rest =>
      if isGap c then tokens? rest
      else
        match h : next? (c :: rest) with
        | none => none
        | some (token, left) =>
            have : left.length < (c :: rest).length := length_next? h
            (tokens? left).map (token :: ·)
termination_by text => text.length
decreasing_by
  · exact Nat.lt_succ_self rest.length
  · exact this

end PlainRequest.Json
