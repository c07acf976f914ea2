/-
# PlainRequest.Proofs.Json.Numbers — numbers are read by their spelling

Each production of a number is followed through twice. Behind a text that no number goes on into, it
reads what it would read alone and leaves that text untouched. And what it returns as the spelling
is read as itself, so a spelling is a normal form: `IsNumeral` texts are exactly the numbers that
values hold.
-/

import PlainRequest.Json.Token
import PlainRequest.Proofs.Text.Cutting
import Mathlib.Data.List.TakeWhile

namespace PlainRequest.Json

open Text

/-! ## The characters of numbers -/

/-- Can the character stand in a number? -/
def isNumberChar (c : Char) : Bool := isDecimal c || ".eE+-".toList.contains c

/-- **No number goes on into `more`.** -/
def EndsNumbers (more : Text) : Prop := ∀ c ∈ more.head?, isNumberChar c = false

/-- No run of digits goes on into `more`. -/
def EndsDigits (more : Text) : Prop := ∀ c ∈ more.head?, isDecimal c = false

theorem endsNumbers_nil : EndsNumbers [] := by simp [EndsNumbers]

theorem endsNumbers_cons {c : Char} (h : isNumberChar c = false) (rest : Text) :
    EndsNumbers (c :: rest) := by
  intro d hd
  simp only [List.head?_cons, Option.mem_def, Option.some.injEq] at hd
  exact hd ▸ h

theorem ne_of_isNumberChar {c d : Char} (hc : isNumberChar c = false)
    (hd : isNumberChar d = true) : c ≠ d := by
  rintro rfl
  rw [hc] at hd
  simp at hd

theorem EndsNumbers.endsDigits {more : Text} (h : EndsNumbers more) : EndsDigits more := by
  intro c hc
  have hnumber := h c hc
  simp only [isNumberChar, Bool.or_eq_false_iff] at hnumber
  exact hnumber.1

/-- The characters of numbers are few enough to be checked one by one. -/
theorem mem_of_isNumberChar {c : Char} (h : isNumberChar c = true) :
    c ∈ "0123456789.eE+-".toList := by
  have hsplit : "0123456789.eE+-".toList = "0123456789".toList ++ ".eE+-".toList := by decide
  simp only [isNumberChar, Bool.or_eq_true, List.contains_iff_mem] at h
  rw [hsplit, List.mem_append]
  exact h.imp_left mem_of_isDecimal

/-! ## Behind a text that ends numbers -/

theorem readDigits?_append {more : Text} (h : EndsDigits more) (text : Text) :
    readDigits? (text ++ more) = (readDigits? text).map (leaving more) := by
  obtain ⟨htake, hdrop⟩ := takeWhile_append_of_head h text
  unfold readDigits?
  simp only [htake, hdrop]
  split <;> rfl

/-- Without a digit in front there is no run of digits. -/
theorem readDigits?_of_endsDigits {more : Text} (h : EndsDigits more) :
    readDigits? more = none := by
  have hread := readDigits?_append h []
  simpa [readDigits?] using hread

/-- A number in front of the point does not start with a zero, unless it is one. -/
theorem readWhole?_of_ne {c : Char} {rest : Text} (h : c ≠ '0') :
    readWhole? (c :: rest) = readDigits? (c :: rest) := by
  unfold readWhole?
  split
  · next heq => exact absurd (List.cons.inj heq).1 h
  · rfl

theorem readWhole?_append {more : Text} (h : EndsDigits more) (text : Text) :
    readWhole? (text ++ more) = (readWhole? text).map (leaving more) := by
  cases text with
  | nil =>
      have hnone : readWhole? more = none := by
        cases more with
        | nil => rfl
        | cons c rest =>
            have hc : c ≠ '0' := by
              rintro rfl
              exact absurd (h '0' rfl) (by decide)
            rw [readWhole?_of_ne hc, readDigits?_of_endsDigits h]
      simpa [readWhole?, readDigits?] using hnone
  | cons c rest =>
      by_cases hc : c = '0'
      · subst hc
        rfl
      · rw [List.cons_append, readWhole?_of_ne hc, readWhole?_of_ne hc, ← List.cons_append,
          readDigits?_append h]

theorem readFraction?_of_ne {c : Char} {rest : Text} (h : c ≠ '.') :
    readFraction? (c :: rest) = some ([], c :: rest) := by
  unfold readFraction?
  split
  · next heq => exact absurd (List.cons.inj heq).1 h
  · rfl

theorem readFraction?_append {more : Text} (h : EndsDigits more) (hpoint : '.' ∉ more.head?)
    (text : Text) :
    readFraction? (text ++ more) = (readFraction? text).map (leaving more) := by
  cases text with
  | nil =>
      cases more with
      | nil => rfl
      | cons c rest =>
          have hc : c ≠ '.' := by
            rintro rfl
            exact hpoint rfl
          rw [List.nil_append, readFraction?_of_ne hc]
          rfl
  | cons c rest =>
      by_cases hc : c = '.'
      · subst hc
        show (readDigits? (rest ++ more)).map _ = ((readDigits? rest).map _).map _
        rw [readDigits?_append h]
        cases readDigits? rest <;> rfl
      · rw [List.cons_append, readFraction?_of_ne hc, readFraction?_of_ne hc]
        rfl

theorem readSign_of_ne {c : Char} {rest : Text} (hplus : c ≠ '+') (hminus : c ≠ '-') :
    readSign (c :: rest) = ('+', c :: rest) := by
  unfold readSign
  split
  · next heq => exact absurd (List.cons.inj heq).1 hplus
  · next heq => exact absurd (List.cons.inj heq).1 hminus
  · rfl

theorem readSign_append {more : Text} (h : EndsNumbers more) (text : Text) :
    readSign (text ++ more) = leaving more (readSign text) := by
  cases text with
  | nil =>
      cases more with
      | nil => rfl
      | cons c rest =>
          have hc := h c rfl
          rw [List.nil_append, readSign_of_ne (ne_of_isNumberChar hc (by decide))
            (ne_of_isNumberChar hc (by decide))]
          rfl
  | cons c rest =>
      by_cases hplus : c = '+'
      · subst hplus
        rfl
      by_cases hminus : c = '-'
      · subst hminus
        rfl
      · rw [List.cons_append, readSign_of_ne hplus hminus, readSign_of_ne hplus hminus]
        rfl

theorem readExponent?_append {more : Text} (h : EndsNumbers more) (text : Text) :
    readExponent? (text ++ more) = (readExponent? text).map (leaving more) := by
  cases text with
  | nil =>
      cases more with
      | nil => rfl
      | cons c rest =>
          have hc := h c rfl
          have hne : ¬ (c = 'e' ∨ c = 'E') := by
            rw [not_or]
            exact ⟨ne_of_isNumberChar hc (by decide), ne_of_isNumberChar hc (by decide)⟩
          rw [List.nil_append, readExponent?, if_neg hne]
          rfl
  | cons c rest =>
      rw [List.cons_append, readExponent?, readExponent?, readSign_append h]
      split
      · show (readDigits? ((readSign rest).2 ++ more)).map _ = ((readDigits? _).map _).map _
        rw [readDigits?_append h.endsDigits]
        cases readDigits? (readSign rest).2 <;> rfl
      · rfl

theorem readMinus_of_ne {c : Char} {rest : Text} (h : c ≠ '-') :
    readMinus (c :: rest) = ([], c :: rest) := by
  unfold readMinus
  split
  · next heq => exact absurd (List.cons.inj heq).1 h
  · rfl

theorem readMinus_append {more : Text} (h : EndsNumbers more) (text : Text) :
    readMinus (text ++ more) = leaving more (readMinus text) := by
  cases text with
  | nil =>
      cases more with
      | nil => rfl
      | cons c rest =>
          have hc := h c rfl
          rw [List.nil_append, readMinus_of_ne (ne_of_isNumberChar hc (by decide))]
          rfl
  | cons c rest =>
      by_cases hc : c = '-'
      · subst hc
        rfl
      · rw [List.cons_append, readMinus_of_ne hc, readMinus_of_ne hc]
        rfl

/-- **Behind a text that ends numbers**, a number is read as it would be alone. -/
theorem readNumber?_append {more : Text} (h : EndsNumbers more) (text : Text) :
    readNumber? (text ++ more) = (readNumber? text).map (leaving more) := by
  have hpoint : '.' ∉ more.head? := fun hmem => absurd (h '.' hmem) (by decide)
  unfold readNumber?
  -- the four parts are read in turn, each of them in front of `more` or leaving it behind
  rw [readMinus_append h]
  simp only [leaving, Option.bind_eq_bind, readWhole?_append h.endsDigits]
  cases readWhole? (readMinus text).2 with
  | none => rfl
  | some whole =>
      simp only [Option.map_some, Option.bind_some, leaving, readFraction?_append h.endsDigits hpoint]
      cases readFraction? whole.2 with
      | none => rfl
      | some fraction =>
          simp only [Option.map_some, Option.bind_some, leaving, readExponent?_append h]
          cases readExponent? fraction.2 <;> rfl

/-! ## Spellings -/

/-- **`IsNumeral spelling`** — the text is a number and is its own spelling. -/
def IsNumeral (spelling : Text) : Prop := readNumber? spelling = some (spelling, [])

theorem readDigits?_all {digits : Text} (hne : digits ≠ [])
    (h : ∀ c ∈ digits, isDecimal c = true) : readDigits? digits = some (digits, []) := by
  have htake : digits.takeWhile isDecimal = digits := List.takeWhile_eq_self_iff.mpr h
  have hdrop : digits.dropWhile isDecimal = [] := List.dropWhile_eq_nil_iff.mpr h
  unfold readDigits?
  rw [htake, hdrop, if_neg (by simpa using hne)]

theorem of_readDigits? {text digits left : Text} (h : readDigits? text = some (digits, left)) :
    digits ≠ [] ∧ ∀ c ∈ digits, isDecimal c = true := by
  simp only [readDigits?] at h
  split at h
  · simp at h
  · next hne =>
      simp only [Option.some.injEq, Prod.mk.injEq] at h
      obtain ⟨rfl, -⟩ := h
      exact ⟨by simpa using hne, fun c hc => List.mem_takeWhile_imp hc⟩

/-- The digits in front of the point are read as themselves. -/
theorem of_readWhole? {text whole left : Text} (h : readWhole? text = some (whole, left)) :
    readWhole? whole = some (whole, []) ∧ ∀ c ∈ whole, isDecimal c = true := by
  cases text with
  | nil => simp [readWhole?, readDigits?] at h
  | cons c rest =>
      by_cases hc : c = '0'
      · subst hc
        simp only [readWhole?, Option.some.injEq, Prod.mk.injEq] at h
        obtain ⟨rfl, -⟩ := h
        exact ⟨rfl, List.forall_mem_singleton.mpr (by decide)⟩
      · rw [readWhole?_of_ne hc] at h
        obtain ⟨hne, hall⟩ := of_readDigits? h
        refine ⟨?_, hall⟩
        -- the first digit is the first character of the text, so it is no zero here either
        obtain ⟨more, hmore⟩ : ∃ more, whole = c :: more := by
          simp only [readDigits?] at h
          split at h
          · simp at h
          · next hdigits =>
              simp only [Option.some.injEq, Prod.mk.injEq, List.takeWhile_cons] at h hdigits
              split at h
              · exact ⟨_, h.1.symm⟩
              · exact absurd h.1.symm hne
        rw [hmore, readWhole?_of_ne hc, ← hmore]
        exact readDigits?_all hne hall

/-- Nothing, or a point and digits. -/
def IsFraction (fraction : Text) : Prop :=
  fraction = [] ∨ ∃ digits, fraction = '.' :: digits ∧ ∀ c ∈ digits, isDecimal c = true

/-- Nothing, or a small `e`, a sign and digits. -/
def IsExponent (exponent : Text) : Prop :=
  exponent = [] ∨ ∃ sign digits, exponent = 'e' :: sign :: digits ∧
    (sign = '+' ∨ sign = '-') ∧ ∀ c ∈ digits, isDecimal c = true

/-- The point and the digits behind it are read as themselves. -/
theorem of_readFraction? {text fraction left : Text}
    (h : readFraction? text = some (fraction, left)) :
    readFraction? fraction = some (fraction, []) ∧
      IsFraction fraction := by
  unfold readFraction? at h
  split at h
  · next rest =>
      obtain ⟨⟨digits, left'⟩, hread, heq⟩ := Option.map_eq_some_iff.mp h
      simp only [Prod.mk.injEq] at heq
      obtain ⟨rfl, rfl⟩ := heq
      obtain ⟨hne, hall⟩ := of_readDigits? hread
      refine ⟨?_, .inr ⟨digits, rfl, hall⟩⟩
      rw [readFraction?, readDigits?_all hne hall]
      rfl
  · simp only [Option.some.injEq, Prod.mk.injEq] at h
    obtain ⟨rfl, -⟩ := h
    exact ⟨rfl, .inl rfl⟩

theorem readSign_fst (text : Text) : (readSign text).1 = '+' ∨ (readSign text).1 = '-' := by
  unfold readSign
  split <;> simp

/-- The exponent, written with its sign, is read as itself. -/
theorem of_readExponent? {text exponent left : Text}
    (h : readExponent? text = some (exponent, left)) :
    readExponent? exponent = some (exponent, []) ∧
      IsExponent exponent := by
  unfold readExponent? at h
  split at h
  · next c rest =>
      split at h
      · obtain ⟨⟨digits, left'⟩, hread, heq⟩ := Option.map_eq_some_iff.mp h
        simp only [Prod.mk.injEq] at heq
        obtain ⟨rfl, rfl⟩ := heq
        obtain ⟨hne, hall⟩ := of_readDigits? hread
        have hsign := readSign_fst rest
        refine ⟨?_, .inr ⟨_, digits, rfl, hsign, hall⟩⟩
        have hagain : readSign ((readSign rest).1 :: digits) = ((readSign rest).1, digits) := by
          rcases hsign with hsign | hsign <;> rw [hsign] <;> rfl
        rw [readExponent?, if_pos (.inl rfl), hagain, readDigits?_all hne hall]
        rfl
      · simp only [Option.some.injEq, Prod.mk.injEq] at h
        obtain ⟨rfl, -⟩ := h
        exact ⟨rfl, .inl rfl⟩
  · simp only [Option.some.injEq, Prod.mk.injEq] at h
    obtain ⟨rfl, -⟩ := h
    exact ⟨rfl, .inl rfl⟩

theorem isNumberChar_of_isDecimal {c : Char} (h : isDecimal c = true) : isNumberChar c = true := by
  simp [isNumberChar, h]

theorem readMinus_fst (text : Text) : (readMinus text).1 = [] ∨ (readMinus text).1 = ['-'] := by
  unfold readMinus
  split <;> simp

theorem readMinus_append_digits {sign digits : Text} (hsign : sign = [] ∨ sign = ['-'])
    (hne : digits ≠ []) (h : ∀ c ∈ digits, isDecimal c = true) (rest : Text) :
    readMinus (sign ++ (digits ++ rest)) = (sign, digits ++ rest) := by
  rcases hsign with rfl | rfl
  · cases digits with
    | nil => exact absurd rfl hne
    | cons c digits =>
        have hc : c ≠ '-' := by
          rintro rfl
          exact absurd (h '-' (by simp)) (by decide)
        exact readMinus_of_ne hc
  · rfl

/-- An exponent, or nothing, ends a run of digits and is no point. -/
theorem endsDigits_exponent {exponent : Text} (h : IsExponent exponent) :
    EndsDigits exponent ∧ '.' ∉ exponent.head? := by
  rcases h with rfl | ⟨sign, digits, rfl, -, -⟩
  · simp [EndsDigits]
  · refine ⟨?_, by simp⟩
    intro c hc
    obtain rfl : 'e' = c := by simpa using hc
    decide

/-- A fraction, or nothing, in front of an exponent ends a run of digits. -/
theorem endsDigits_fraction {fraction exponent : Text} (h : IsFraction fraction)
    (hexponent : EndsDigits exponent) : EndsDigits (fraction ++ exponent) := by
  rcases h with rfl | ⟨digits, rfl, -⟩
  · exact hexponent
  · intro c hc
    obtain rfl : '.' = c := by simpa using hc
    decide

/-- **The parts of a number are read apart again**, since each stands in front of a part that ends
it. -/
theorem readNumber?_of_parts {sign whole fraction exponent power : Text}
    (hsign : sign = [] ∨ sign = ['-']) (hdigits : ∀ c ∈ whole, isDecimal c = true)
    (hwhole : readWhole? whole = some (whole, [])) (hpoint : IsFraction fraction)
    (hfraction : readFraction? fraction = some (fraction, []))
    (hends : EndsDigits exponent ∧ '.' ∉ exponent.head?)
    (hexponent : readExponent? exponent = some (power, [])) :
    readNumber? (sign ++ whole ++ fraction ++ exponent) =
      some (sign ++ whole ++ fraction ++ power, []) := by
  have hne : whole ≠ [] := by
    rintro rfl
    exact absurd hwhole (by decide)
  have hminus := readMinus_append_digits hsign hne hdigits (fraction ++ exponent)
  unfold readNumber?
  rw [List.append_assoc, List.append_assoc, hminus]
  simp only [Option.bind_eq_bind, readWhole?_append (endsDigits_fraction hpoint hends.1), hwhole,
    Option.map_some, leaving, List.nil_append, Option.bind_some,
    readFraction?_append hends.1 hends.2, hfraction, hexponent, Option.pure_def,
    List.append_assoc]

/-- **What is read as the spelling of a number is a numeral**, and made of the characters of
numbers. -/
theorem isNumeral_of_readNumber? {text spelling left : Text}
    (h : readNumber? text = some (spelling, left)) :
    IsNumeral spelling ∧ spelling ≠ [] ∧ ∀ c ∈ spelling, isNumberChar c = true := by
  simp only [readNumber?, Option.bind_eq_bind, Option.bind_eq_some_iff, Option.pure_def,
    Option.some.injEq, Prod.mk.injEq, Prod.exists] at h
  obtain ⟨whole, _, hwhole, fraction, _, hfraction, exponent, _, hexponent, rfl, -⟩ := h
  obtain ⟨hwhole, hdigits⟩ := of_readWhole? hwhole
  obtain ⟨hfraction, hpoint⟩ := of_readFraction? hfraction
  obtain ⟨hexponent, hpower⟩ := of_readExponent? hexponent
  have hsign := readMinus_fst text
  have hne : whole ≠ [] := by
    rintro rfl
    exact absurd hwhole (by decide)
  refine ⟨?_, by simp [hne], ?_⟩
  · exact readNumber?_of_parts hsign hdigits hwhole hpoint hfraction (endsDigits_exponent hpower)
      hexponent
  · intro c hc
    simp only [List.mem_append, or_assoc] at hc
    rcases hc with hc | hc | hc | hc
    · rcases hsign with hsign | hsign
      · simp [hsign] at hc
      · obtain rfl : c = '-' := by simpa [hsign] using hc
        decide
    · exact isNumberChar_of_isDecimal (hdigits c hc)
    · rcases hpoint with rfl | ⟨digits, rfl, hall⟩
      · simp at hc
      rcases List.mem_cons.mp hc with rfl | hc
      · decide
      · exact isNumberChar_of_isDecimal (hall c hc)
    · rcases hpower with rfl | ⟨sign, digits, rfl, hsigns, hall⟩
      · simp at hc
      rcases List.mem_cons.mp hc with rfl | hc
      · decide
      rcases List.mem_cons.mp hc with rfl | hc
      · rcases hsigns with rfl | rfl <;> decide
      · exact isNumberChar_of_isDecimal (hall c hc)

/-- A numeral is not empty, and made of the characters of numbers. -/
theorem IsNumeral.chars {spelling : Text} (h : IsNumeral spelling) :
    spelling ≠ [] ∧ ∀ c ∈ spelling, isNumberChar c = true :=
  (isNumeral_of_readNumber? h).2

/-- A numeral is read in front of anything that no number goes on into. -/
theorem IsNumeral.read {spelling more : Text} (h : IsNumeral spelling) (hends : EndsNumbers more) :
    readNumber? (spelling ++ more) = some (spelling, more) := by
  rw [readNumber?_append hends, h]
  rfl

/-- The spelling of a text that is a number is a numeral. -/
theorem isNumeral_of_numberOf? {text spelling : Text} (h : numberOf? text = some spelling) :
    IsNumeral spelling := by
  unfold numberOf? at h
  split at h
  · next read hread =>
      obtain rfl : read = spelling := by simpa using h
      exact (isNumeral_of_readNumber? hread).1
  · simp at h

end PlainRequest.Json
