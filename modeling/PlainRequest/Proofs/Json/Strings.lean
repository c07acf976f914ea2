/-
# PlainRequest.Proofs.Json.Strings — a written string is read back

The reader of a string is first brought into the form of an automaton, `stringStep`, that says of one
character whether it ends the string, is refused, is part of an escape, or completes a character of
the text. From there follow two laws about text that is appended to what is read, and that a character
is read in whatever way it is spelled, UTF-16 surrogates included. What `writeChar` makes of a
character is one of these ways, in either mode of escaping.
-/

import PlainRequest.Json.Printer
import PlainRequest.Proofs.Json.Grammar
import PlainRequest.Proofs.Text.Cutting

namespace PlainRequest.Json

open Text

/-! ## The reader as an automaton -/

/-- What one character does to the reading of a string. -/
inductive StringStep
  /-- It ends the string. -/
  | done
  /-- It cannot stand there. -/
  | fail
  /-- It belongs to an escape that is not complete. -/
  | keep (mode : StringMode)
  /-- It completes this character of the text. -/
  | push (c : Char)

/-- The step of a character behind a backslash. -/
def escapeStep (c : Char) : StringStep :=
  if c = 'u' then .keep (.unit none 0 4)
  else
    match escaped? c with
    | some e => .push e
    | none => .fail

/-- The step of a hexadecimal digit, with the value of all digits so far. -/
def unitStep (high : Option Nat) (value missing : Nat) : StringStep :=
  if missing ≤ 1 then
    match unit16 high value with
    | .character decoded => .push decoded
    | .high first => .keep (.pair first)
    | .misplaced => .fail
  else .keep (.unit high value (missing - 1))

/-- The step of a character, by the mode of the reader. -/
def stringStep : StringMode → Char → StringStep
  | .plain, c =>
      if c = '"' then .done
      else if c = '\\' then .keep .escape
      else if c.toNat < 0x20 then .fail
      else .push c
  | .escape, c => escapeStep c
  | .unit high value missing, c =>
      match digitValue? c with
      | none => .fail
      | some digit => unitStep high (value * 16 + digit) missing
  | .pair high, c => if c = '\\' then .keep (.pairEscape high) else .fail
  | .pairEscape high, c => if c = 'u' then .keep (.unit (some high) 0 4) else .fail

/-- Go on behind a step. -/
def afterStep (rest : Text) : StringStep → Option (Text × Text)
  | .done => some ([], rest)
  | .fail => none
  | .keep mode => readString? mode rest
  | .push c => pushChar c (readString? .plain rest)

@[simp] theorem readString?_nil (mode : StringMode) : readString? mode [] = none := by
  cases mode <;> rfl

/-- Reading a string is taking one step and going on. -/
theorem readString?_cons (mode : StringMode) (c : Char) (rest : Text) :
    readString? mode (c :: rest) = afterStep rest (stringStep mode c) := by
  cases mode with
  | plain =>
      simp only [readString?, stringStep]
      split
      · rfl
      split
      · rfl
      split <;> rfl
  | escape =>
      simp only [readString?, stringStep, escapeStep]
      split
      · rfl
      · cases escaped? c <;> rfl
  | unit high value missing =>
      simp only [readString?, stringStep]
      cases digitValue? c with
      | none => rfl
      | some digit =>
          simp only [unitStep]
          split
          · cases unit16 high (value * 16 + digit) <;> rfl
          · rfl
  | pair high =>
      simp only [readString?, stringStep]
      split <;> rfl
  | pairEscape high =>
      simp only [readString?, stringStep]
      split <;> rfl

/-! ## More text behind what is read -/

theorem pushChar_map_leaving (c : Char) (more : Text) (read : Option (Text × Text)) :
    pushChar c (read.map (leaving more)) = (pushChar c read).map (leaving more) := by
  cases read <;> rfl

/-- A string that is read to its end is read from a longer text too, and leaves what is longer. -/
theorem readString?_append {mode : StringMode} {text read left : Text} (more : Text)
    (h : readString? mode text = some (read, left)) :
    readString? mode (text ++ more) = some (read, left ++ more) := by
  induction text generalizing mode read with
  | nil => simp at h
  | cons c rest ih =>
      rw [List.cons_append, readString?_cons]
      rw [readString?_cons] at h
      cases hstep : stringStep mode c with
      | done =>
          simp only [hstep, afterStep, Option.some.injEq, Prod.mk.injEq] at h ⊢
          exact ⟨h.1, by rw [h.2]⟩
      | fail => simp [hstep, afterStep] at h
      | keep next =>
          simp only [hstep, afterStep] at h ⊢
          exact ih h
      | push d =>
          simp only [hstep, afterStep, pushChar, Option.map_eq_some_iff, Prod.mk.injEq,
            Prod.exists] at h ⊢
          obtain ⟨text', left', hread, rfl, rfl⟩ := h
          exact ⟨text', left' ++ more, ih hread, rfl, rfl⟩

/-- **No string goes on into `more`**: wherever the reader of a string is, it does not get to an end
in it. -/
def EndsStrings (more : Text) : Prop := ∀ mode, readString? mode more = none

/-- Behind such a text, a string is complete before it or not at all. -/
theorem readString?_append_of_endsStrings {more : Text} (h : EndsStrings more)
    (mode : StringMode) (text : Text) :
    readString? mode (text ++ more) = (readString? mode text).map (leaving more) := by
  -- every mode may come up on the way, so the induction is over all of them
  induction text generalizing mode with
  | nil => simp [h mode]
  | cons c rest ih =>
      rw [List.cons_append, readString?_cons, readString?_cons]
      cases stringStep mode c with
      | done => rfl
      | fail => rfl
      | keep next => exact ih next
      | push d => rw [afterStep, afterStep, ih, pushChar_map_leaving]

/-- No line feed stands in a string. -/
theorem endsStrings_newline (more : Text) : EndsStrings ('\n' :: more) := by
  intro mode
  rw [readString?_cons]
  cases mode <;> rfl

/-- Only a quotation mark ends a string. -/
theorem endsStrings_singleton {c : Char} (h : c ≠ '"') : EndsStrings [c] := by
  intro mode
  rw [readString?_cons]
  cases hstep : stringStep mode c with
  | done =>
      exfalso
      cases mode <;> simp only [stringStep, escapeStep, unitStep] at hstep <;> grind
  | fail => rfl
  | keep next => simp [afterStep]
  | push d => simp [afterStep, pushChar]

/-! ## A character that is spelled is read -/

theorem mem_letterEscapes_iff {e c : Char} :
    (e, c) ∈ letterEscapes ↔ escaped? e = some c := by
  simp only [letterEscapes, List.mem_cons, Prod.mk.injEq, List.not_mem_nil, or_false, escaped?]
  grind

/-- A hexadecimal digit is taken into the value. -/
theorem readString?_digit {c : Char} {n : Nat} (h : digitValue? c = some n) (high : Option Nat)
    (value missing : Nat) (rest : Text) :
    readString? (.unit high value missing) (c :: rest) =
      afterStep rest (unitStep high (value * 16 + n) missing) := by
  rw [readString?_cons, stringStep, h]

/-- A digit that is not the last one is kept. -/
theorem afterStep_unitStep (high : Option Nat) (value missing : Nat) (rest : Text) :
    afterStep rest (unitStep high value (missing + 2)) =
      readString? (.unit high value (missing + 1)) rest := by
  rw [unitStep, if_neg (by omega)]
  rfl

/-- Digits that do not end an escape are all taken into its value. -/
theorem readString?_hexDigits {digits : Text} {value : Nat} (h : HexDigits digits value)
    (high : Option Nat) (missing : Nat) (rest : Text) :
    readString? (.unit high 0 (digits.length + (missing + 1))) (digits ++ rest) =
      readString? (.unit high value (missing + 1)) rest := by
  induction h generalizing missing rest with
  | nil => rw [List.length_nil, Nat.zero_add, List.nil_append]
  | @snoc digits value c n _ hc ih =>
      have hcount : (digits ++ [c]).length + (missing + 1) = digits.length + (missing + 1 + 1) := by
        rw [List.length_append, List.length_singleton]
        omega
      rw [hcount, List.append_assoc, ih, List.singleton_append, readString?_digit hc,
        afterStep_unitStep]

/-- **Four hexadecimal digits** are read as the code unit they spell. -/
theorem readString?_unit {digits : Text} {unit : Nat} (h : SpellsUnit digits unit)
    (high : Option Nat) (rest : Text) :
    readString? (.unit high 0 4) (digits ++ rest) = afterStep rest (unitStep high unit 1) := by
  obtain ⟨hlength, hdigits⟩ := h
  cases hdigits with
  | nil => simp at hlength
  | @snoc digits value c n hdigits hc =>
      have hthree : digits.length = 3 := by simpa using hlength
      have hread := readString?_hexDigits hdigits high 0 (c :: rest)
      rw [hthree] at hread
      rw [List.append_assoc, List.singleton_append]
      show readString? (.unit high 0 (3 + (0 + 1))) (digits ++ c :: rest) = _
      rw [hread, readString?_digit hc]

/-- **A character is read, in whatever way it is spelled.** -/
theorem readString?_spellsChar {spelled : Text} {c : Char} (h : SpellsChar spelled c)
    (rest : Text) :
    readString? .plain (spelled ++ rest) = pushChar c (readString? .plain rest) := by
  cases h with
  | plain hquote hback hprintable =>
      rw [List.singleton_append, readString?_cons, stringStep, if_neg hquote, if_neg hback,
        if_neg (by omega)]
      rfl
  | @letter e _ h =>
      have hmeans := mem_letterEscapes_iff.mp h
      have hunit : e ≠ 'u' := by
        rintro rfl
        exact absurd hmeans (by simp [escaped?])
      show readString? .escape (e :: rest) = _
      rw [readString?_cons, stringStep, escapeStep, if_neg hunit, hmeans]
      rfl
  | @unit digits _ h =>
      -- no character is a surrogate
      have hvalid : c.toNat < 0xD800 ∨ 0xDFFF < c.toNat ∧ c.toNat < 0x110000 := c.valid
      have hunit : unit16 none c.toNat = .character c := by
        rw [unit16, if_neg (by omega), if_neg (by omega), Char.ofNat_toNat]
      show readString? (.unit none 0 4) (digits ++ rest) = _
      rw [readString?_unit h, unitStep, if_pos (Nat.le_refl 1), hunit]
      rfl
  | @surrogates first second high low _ hfirst hsecond hhigh hlow h =>
      have hopen : unit16 none high = .high high := by
        rw [unit16, if_neg (by omega), if_pos hhigh]
      have hclose : unit16 (some high) low = .character c := by
        rw [unit16, if_pos hlow, ← h, Char.ofNat_toNat]
      rw [List.append_assoc]
      show readString? (.unit none 0 4) (first ++ ('\\' :: 'u' :: second ++ rest)) = _
      rw [readString?_unit hfirst, unitStep, if_pos (Nat.le_refl 1), hopen]
      show readString? (.unit (some high) 0 4) (second ++ rest) = _
      rw [readString?_unit hsecond, unitStep, if_pos (Nat.le_refl 1), hclose]
      rfl

/-- **A string is read, in whatever way it is spelled**, up to its closing mark. -/
theorem readString?_spellsText {spelled text : Text} (h : SpellsText spelled text) (rest : Text) :
    readString? .plain (spelled ++ '"' :: rest) = some (text, rest) := by
  induction h with
  | nil => rfl
  | cons hchar _ ih =>
      rw [List.append_assoc, readString?_spellsChar hchar, ih]
      rfl

/-! ## What is written spells the text -/

/-- **`Written escapeNonAscii c text`** — the four ways in which a character can be written. -/
inductive Written (escapeNonAscii : Bool) (c : Char) : Text → Prop
  /-- As an escape of one letter. -/
  | short {e : Char} (hmeans : escaped? e = some c) (hprintable : 0x20 ≤ e.toNat) :
      Written escapeNonAscii c ['\\', e]
  /-- As an escape of one code unit. -/
  | unit (h : c.toNat < 0x10000) : Written escapeNonAscii c (unitEscape c.toNat)
  /-- As two surrogates. -/
  | surrogates (h : 0x10000 ≤ c.toNat) :
      Written escapeNonAscii c (unitEscape (0xD800 + (c.toNat - 0x10000) / 0x400)
        ++ unitEscape (0xDC00 + (c.toNat - 0x10000) % 0x400))
  /-- As itself. -/
  | plain (hquote : c ≠ '"') (hback : c ≠ '\\') (hprintable : 0x20 ≤ c.toNat)
      (hascii : escapeNonAscii = true → c.toNat < 0x80) : Written escapeNonAscii c [c]

-- The cases are taken one by one, since `split` is slow on a chain this long.
theorem written_writeChar (escapeNonAscii : Bool) (c : Char) :
    Written escapeNonAscii c (writeChar escapeNonAscii c) := by
  unfold writeChar
  by_cases hquote : c = '"'
  · rw [if_pos hquote, hquote]
    exact .short rfl (by decide)
  rw [if_neg hquote]
  by_cases hback : c = '\\'
  · rw [if_pos hback, hback]
    exact .short rfl (by decide)
  rw [if_neg hback]
  by_cases hbackspace : c = '\x08'
  · rw [if_pos hbackspace, hbackspace]
    exact .short rfl (by decide)
  rw [if_neg hbackspace]
  by_cases hfeed : c = '\x0c'
  · rw [if_pos hfeed, hfeed]
    exact .short rfl (by decide)
  rw [if_neg hfeed]
  by_cases hnewline : c = '\n'
  · rw [if_pos hnewline, hnewline]
    exact .short rfl (by decide)
  rw [if_neg hnewline]
  by_cases hreturn : c = '\r'
  · rw [if_pos hreturn, hreturn]
    exact .short rfl (by decide)
  rw [if_neg hreturn]
  by_cases htab : c = '\t'
  · rw [if_pos htab, htab]
    exact .short rfl (by decide)
  rw [if_neg htab]
  by_cases hcontrol : c.toNat < 0x20
  · rw [if_pos hcontrol]
    exact .unit (by omega)
  rw [if_neg hcontrol]
  by_cases hescape : (escapeNonAscii && decide (0x80 ≤ c.toNat)) = true
  · rw [if_pos hescape, utf16Escape]
    by_cases hsmall : c.toNat < 0x10000
    · rw [if_pos hsmall]
      exact .unit hsmall
    · rw [if_neg hsmall]
      exact .surrogates (by omega)
  · rw [if_neg hescape]
    apply Written.plain hquote hback (by omega)
    intro hon
    rw [hon, Bool.true_and, decide_eq_true_eq] at hescape
    omega

/-- Four digits are written for a code unit. -/
theorem spellsUnit_hexFour {unit : Nat} (h : unit < 0x10000) : SpellsUnit (hexFour unit) unit := by
  have hdigit : ∀ n, digitValue? (hexDigit (n % 16)) = some (n % 16) := fun n =>
    (digitValue?_hexDigit (Nat.mod_lt n (by omega))).1
  have hvalue : (((0 * 16 + unit / 4096 % 16) * 16 + unit / 256 % 16) * 16
      + unit / 16 % 16) * 16 + unit % 16 = unit := by omega
  have hfour := (((HexDigits.nil.snoc (hdigit (unit / 4096))).snoc (hdigit (unit / 256))).snoc
    (hdigit (unit / 16))).snoc (hdigit unit)
  rw [hvalue] at hfour
  exact ⟨rfl, hfour⟩

/-- Each way to write a character spells it. -/
theorem Written.spellsChar {escapeNonAscii : Bool} {c : Char} {text : Text}
    (h : Written escapeNonAscii c text) : SpellsChar text c := by
  cases h with
  | short hmeans _ => exact .letter (mem_letterEscapes_iff.mpr hmeans)
  | unit hsmall => exact .unit (spellsUnit_hexFour hsmall)
  | surrogates hlarge =>
      -- the twenty bits past U+FFFF, ten for each surrogate
      have hvalid : c.toNat < 0xD800 ∨ 0xDFFF < c.toNat ∧ c.toNat < 0x110000 := c.valid
      generalize hoffset : c.toNat - 0x10000 = offset
      exact .surrogates (spellsUnit_hexFour (by omega)) (spellsUnit_hexFour (by omega)) (by omega)
        (by omega) (by omega)
  | plain hquote hback hprintable _ => exact .plain hquote hback hprintable

/-- **A written string spells its text**, escaped or not. -/
theorem spellsText_flatMap (escapeNonAscii : Bool) (text : Text) :
    SpellsText (text.flatMap (writeChar escapeNonAscii)) text := by
  induction text with
  | nil => exact .nil
  | cons c text ih => exact .cons (written_writeChar escapeNonAscii c).spellsChar ih

/-- **A written string is read as the text it stands for.** -/
theorem readString?_written (escapeNonAscii : Bool) (text rest : Text) :
    readString? .plain (text.flatMap (writeChar escapeNonAscii) ++ '"' :: rest) =
      some (text, rest) :=
  readString?_spellsText (spellsText_flatMap escapeNonAscii text) rest

end PlainRequest.Json
