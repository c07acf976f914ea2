/-
# PlainRequest.Proofs.Json.Spelling — the tokens that are read are those that are spelled

Whatever the reader takes as a string, a number or a token is spelled so by the text in front of what
it leaves; and whatever spells a token is read as that token, a number provided that none goes on
behind it. In the tokens of a tree every number stands before a mark or at the end, so for trees the
proviso is always met: a text spells a tree exactly if the tokens of the tree are read from it. No two
trees have the same tokens, so a text spells one tree at most.
-/

import PlainRequest.Proofs.Json.RoundTrip

namespace PlainRequest.Json

open Text

/-! ## What is read as a string is spelled so -/

theorem toNat_ofNat {n : Nat} (h : n < 0xD800 ∨ 0xDFFF < n ∧ n < 0x110000) :
    (Char.ofNat n).toNat = n := by
  rw [Char.ofNat, dif_pos h]
  rfl

/-- What stands in front of the digits of a code unit: the escape of a high surrogate, if there was
one, and the opening of the escape. -/
inductive BeforeUnit : Option Nat → Text → Prop
  | single : BeforeUnit none ['\\', 'u']
  | second {first : Text} {high : Nat} (h : SpellsUnit first high)
      (hhigh : 0xD800 ≤ high ∧ high ≤ 0xDBFF) :
      BeforeUnit (some high) ('\\' :: 'u' :: first ++ ['\\', 'u'])

/-- **`Begun mode before`** — a reader in this mode has read `before` since the last character was
complete. -/
inductive Begun : StringMode → Text → Prop
  | plain : Begun .plain []
  | escape : Begun .escape ['\\']
  | unit {high : Option Nat} {opening digits : Text} {value missing : Nat}
      (h : BeforeUnit high opening) (hdigits : HexDigits digits value)
      (hlength : digits.length + missing = 4) (hmissing : 0 < missing) :
      Begun (.unit high value missing) (opening ++ digits)
  | pair {first : Text} {high : Nat} (h : SpellsUnit first high)
      (hhigh : 0xD800 ≤ high ∧ high ≤ 0xDBFF) : Begun (.pair high) ('\\' :: 'u' :: first)
  | pairEscape {first : Text} {high : Nat} (h : SpellsUnit first high)
      (hhigh : 0xD800 ≤ high ∧ high ≤ 0xDBFF) :
      Begun (.pairEscape high) ('\\' :: 'u' :: first ++ ['\\'])

/-- What a step must make of the character that is begun. -/
def Carries (before : Text) (c : Char) : StringStep → Prop
  | .done => before = [] ∧ c = '"'
  | .fail => True
  | .keep next => Begun next (before ++ [c])
  | .push d => SpellsChar (before ++ [c]) d

/-- The last of four digits completes a character, or half of one, or is refused. -/
theorem carries_unitStep {high : Option Nat} {opening digits : Text} {c : Char}
    {value missing : Nat} (h : BeforeUnit high opening) (hunit : SpellsUnit (digits ++ [c]) value)
    (hlast : missing ≤ 1) : Carries (opening ++ digits) c (unitStep high value missing) := by
  have hlt := hunit.lt
  rw [unitStep, if_pos hlast]
  cases h with
  | single =>
      by_cases hlow : 0xDC00 ≤ value ∧ value ≤ 0xDFFF
      · rw [unit16, if_pos hlow]
        trivial
      by_cases hhigh : 0xD800 ≤ value ∧ value ≤ 0xDBFF
      · rw [unit16, if_neg hlow, if_pos hhigh]
        exact .pair hunit hhigh
      · rw [unit16, if_neg hlow, if_neg hhigh]
        have hvalue : (Char.ofNat value).toNat = value := toNat_ofNat (by omega)
        exact .unit (hvalue.symm ▸ hunit)
  | @second first high hfirst hhigh =>
      by_cases hlow : 0xDC00 ≤ value ∧ value ≤ 0xDFFF
      · have hspelled := SpellsChar.surrogates hfirst hunit hhigh hlow (toNat_ofNat (by omega))
        rw [unit16, if_pos hlow]
        show SpellsChar ('\\' :: 'u' :: first ++ ['\\', 'u'] ++ digits ++ [c]) _
        rwa [List.append_assoc, List.append_assoc]
      · rw [unit16, if_neg hlow]
        trivial

/-- **One character keeps what is begun**, or completes it. -/
theorem carries_stringStep {mode : StringMode} {before : Text} (h : Begun mode before) (c : Char) :
    Carries before c (stringStep mode c) := by
  cases h with
  | plain =>
      rw [stringStep]
      by_cases hquote : c = '"'
      · rw [if_pos hquote]
        exact ⟨rfl, hquote⟩
      rw [if_neg hquote]
      by_cases hback : c = '\\'
      · rw [if_pos hback, hback]
        exact .escape
      rw [if_neg hback]
      by_cases hcontrol : c.toNat < 0x20
      · rw [if_pos hcontrol]
        trivial
      rw [if_neg hcontrol]
      exact .plain hquote hback (by omega)
  | escape =>
      rw [stringStep, escapeStep]
      by_cases hunit : c = 'u'
      · rw [if_pos hunit, hunit]
        have hbegun : Begun (.unit none 0 4) (['\\', 'u'] ++ []) := .unit .single .nil rfl (by omega)
        exact hbegun
      rw [if_neg hunit]
      cases hmeans : escaped? c with
      | none => trivial
      | some e => exact .letter (mem_letterEscapes_iff.mpr hmeans)
  | @unit high opening digits value missing hbefore hdigits hlength hmissing =>
      rw [stringStep]
      cases hdigit : digitValue? c with
      | none => trivial
      | some n =>
          have hnext := hdigits.snoc hdigit
          have hcount : (digits ++ [c]).length = digits.length + 1 := by simp
          show Carries _ c (unitStep high (value * 16 + n) missing)
          by_cases hlast : missing ≤ 1
          · exact carries_unitStep hbefore ⟨by omega, hnext⟩ hlast
          · rw [unitStep, if_neg hlast]
            show Begun _ (opening ++ digits ++ [c])
            rw [List.append_assoc]
            exact .unit hbefore hnext (by omega) (by omega)
  | pair hfirst hhigh =>
      rw [stringStep]
      by_cases hback : c = '\\'
      · rw [if_pos hback, hback]
        exact .pairEscape hfirst hhigh
      · rw [if_neg hback]
        trivial
  | @pairEscape first high hfirst hhigh =>
      rw [stringStep]
      by_cases hunit : c = 'u'
      · rw [if_pos hunit, hunit]
        have hbegun : Begun (.unit (some high) 0 4) ('\\' :: 'u' :: first ++ ['\\', 'u'] ++ []) :=
          .unit (.second hfirst hhigh) .nil rfl (by omega)
        simpa [Carries] using hbegun
      · rw [if_neg hunit]
        trivial

/-- What is begun and read to the end of the string is the text of a string. -/
theorem spellsText_of_begun {mode : StringMode} {before text read left : Text}
    (hbegun : Begun mode before) (h : readString? mode text = some (read, left)) :
    ∃ spelled, before ++ text = spelled ++ '"' :: left ∧ SpellsText spelled read := by
  induction text generalizing mode before read with
  | nil => simp at h
  | cons c rest ih =>
      have hcarries := carries_stringStep hbegun c
      rw [readString?_cons] at h
      cases hstep : stringStep mode c with
      | done =>
          rw [hstep] at h hcarries
          obtain ⟨rfl, rfl⟩ := hcarries
          simp only [afterStep, Option.some.injEq, Prod.mk.injEq] at h
          obtain ⟨rfl, rfl⟩ := h
          exact ⟨[], rfl, .nil⟩
      | fail => simp [hstep, afterStep] at h
      | keep next =>
          rw [hstep] at h hcarries
          obtain ⟨spelled, heq, hspelled⟩ := ih hcarries h
          exact ⟨spelled, by simpa using heq, hspelled⟩
      | push d =>
          rw [hstep] at h hcarries
          obtain ⟨⟨others, left'⟩, hread, heq⟩ := Option.map_eq_some_iff.mp h
          simp only [Prod.mk.injEq] at heq
          obtain ⟨rfl, rfl⟩ := heq
          obtain ⟨spelled, heq, hspelled⟩ := ih .plain hread
          refine ⟨before ++ [c] ++ spelled, ?_, .cons hcarries hspelled⟩
          rw [List.nil_append] at heq
          simp [heq]

/-- **What is read as a string is spelled so**, up to the closing mark. -/
theorem spellsText_of_readString? {text read left : Text}
    (h : readString? .plain text = some (read, left)) :
    ∃ spelled, text = spelled ++ '"' :: left ∧ SpellsText spelled read :=
  spellsText_of_begun .plain h

/-! ## What is read as a number is spelled so -/

theorem isDigits_of_readDigits? {text digits left : Text}
    (h : readDigits? text = some (digits, left)) : IsDigits digits ∧ text = digits ++ left := by
  refine ⟨of_readDigits? h, ?_⟩
  simp only [readDigits?] at h
  split at h
  · simp at h
  · simp only [Option.some.injEq, Prod.mk.injEq] at h
    rw [← h.1, ← h.2, List.takeWhile_append_dropWhile]

theorem eq_readMinus (text : Text) : text = (readMinus text).1 ++ (readMinus text).2 := by
  unfold readMinus
  split <;> rfl

theorem isWhole_of_readWhole? {text whole left : Text} (h : readWhole? text = some (whole, left)) :
    IsWhole whole ∧ text = whole ++ left := by
  cases text with
  | nil => simp [readWhole?, readDigits?] at h
  | cons c rest =>
      by_cases hc : c = '0'
      · subst hc
        simp only [readWhole?, Option.some.injEq, Prod.mk.injEq] at h
        obtain ⟨rfl, rfl⟩ := h
        exact ⟨.zero, rfl⟩
      · rw [readWhole?_of_ne hc] at h
        obtain ⟨hdigits, heq⟩ := isDigits_of_readDigits? h
        cases whole with
        | nil => exact absurd rfl hdigits.1
        | cons d digits =>
            obtain ⟨rfl, rfl⟩ := List.cons.inj heq
            exact ⟨.digits hc hdigits, rfl⟩

theorem isPlaces_of_readFraction? {text fraction left : Text}
    (h : readFraction? text = some (fraction, left)) :
    IsPlaces fraction ∧ text = fraction ++ left := by
  unfold readFraction? at h
  split at h
  · next rest =>
      obtain ⟨⟨digits, left'⟩, hread, heq⟩ := Option.map_eq_some_iff.mp h
      obtain ⟨rfl, rfl⟩ := Prod.mk.inj heq
      obtain ⟨hdigits, rfl⟩ := isDigits_of_readDigits? hread
      exact ⟨.point hdigits, rfl⟩
  · obtain ⟨rfl, rfl⟩ := Prod.mk.inj (Option.some.inj h)
    exact ⟨.none, rfl⟩

/-- A sign is there, or a plus sign is put in front of what is there. -/
theorem readSign_cases (text : Text) :
    (∃ sign rest, text = sign :: rest ∧ (sign = '+' ∨ sign = '-') ∧ readSign text = (sign, rest)) ∨
      readSign text = ('+', text) := by
  unfold readSign
  split <;> simp

theorem spellsExponent_of_readExponent? {text power left : Text}
    (h : readExponent? text = some (power, left)) :
    ∃ exponent, SpellsExponent exponent power ∧ text = exponent ++ left := by
  unfold readExponent? at h
  split at h
  · next e rest =>
      split at h
      · next he =>
          obtain ⟨⟨digits, left'⟩, hread, heq⟩ := Option.map_eq_some_iff.mp h
          obtain ⟨rfl, rfl⟩ := Prod.mk.inj heq
          obtain ⟨hdigits, hrest⟩ := isDigits_of_readDigits? hread
          rcases readSign_cases rest with ⟨sign, others, rfl, hsign, hsplit⟩ | hsplit
          · rw [hsplit] at hrest ⊢
            obtain rfl : others = digits ++ left' := hrest
            exact ⟨e :: sign :: digits, .signed he hsign hdigits, rfl⟩
          · rw [hsplit] at hrest ⊢
            obtain rfl : rest = digits ++ left' := hrest
            exact ⟨e :: digits, .unsigned he hdigits, rfl⟩
      · obtain ⟨rfl, rfl⟩ := Prod.mk.inj (Option.some.inj h)
        exact ⟨[], .none, rfl⟩
  · obtain ⟨rfl, rfl⟩ := Prod.mk.inj (Option.some.inj h)
    exact ⟨[], .none, rfl⟩

/-- **What is read as a number is spelled so**, up to the exponent. -/
theorem spellsNumber_of_readNumber? {text spelling left : Text}
    (h : readNumber? text = some (spelling, left)) :
    ∃ spelled, SpellsNumber spelled spelling ∧ text = spelled ++ left := by
  simp only [readNumber?, Option.bind_eq_bind, Option.bind_eq_some_iff, Option.pure_def,
    Option.some.injEq, Prod.mk.injEq, Prod.exists] at h
  obtain ⟨whole, _, hreadWhole, places, _, hreadPlaces, power, _, hreadPower, rfl, rfl⟩ := h
  obtain ⟨hwhole, hrest⟩ := isWhole_of_readWhole? hreadWhole
  obtain ⟨hplaces, rfl⟩ := isPlaces_of_readFraction? hreadPlaces
  obtain ⟨exponent, hexponent, rfl⟩ := spellsExponent_of_readExponent? hreadPower
  refine ⟨_, .parts (readMinus_fst text) hwhole hplaces hexponent, ?_⟩
  calc text = (readMinus text).1 ++ (readMinus text).2 := eq_readMinus text
    _ = _ := by simp only [hrest, List.append_assoc]

/-! ## A number that is spelled is read -/

theorem IsWhole.read {whole : Text} (h : IsWhole whole) :
    readWhole? whole = some (whole, []) ∧ ∀ c ∈ whole, isDecimal c = true := by
  cases h with
  | zero => exact ⟨rfl, List.forall_mem_singleton.mpr (by decide)⟩
  | digits hc h =>
      rw [readWhole?_of_ne hc]
      exact ⟨readDigits?_all h.1 h.2, h.2⟩

theorem IsPlaces.read {places : Text} (h : IsPlaces places) :
    readFraction? places = some (places, []) ∧ IsFraction places := by
  cases h with
  | none => exact ⟨rfl, .inl rfl⟩
  | @point digits h =>
      refine ⟨?_, .inr ⟨digits, rfl, h.2⟩⟩
      rw [readFraction?, readDigits?_all h.1 h.2]
      rfl

/-- The letter of an exponent is no digit and no point. -/
theorem endsDigits_letter {e : Char} (he : e = 'e' ∨ e = 'E') (rest : Text) :
    EndsDigits (e :: rest) ∧ '.' ∉ (e :: rest).head? := by
  have hdigit : isDecimal e = false := by rcases he with rfl | rfl <;> decide
  have hpoint : e ≠ '.' := by rcases he with rfl | rfl <;> decide
  exact ⟨by simpa [EndsDigits] using hdigit, by simpa using hpoint⟩

theorem SpellsExponent.read {exponent power : Text} (h : SpellsExponent exponent power) :
    readExponent? exponent = some (power, []) ∧
      (EndsDigits exponent ∧ '.' ∉ exponent.head?) := by
  cases h with
  | none => exact ⟨rfl, by simp [EndsDigits]⟩
  | @unsigned e digits he h =>
      refine ⟨?_, endsDigits_letter he _⟩
      -- a digit comes first, so there is no sign
      have hsign : readSign digits = ('+', digits) := by
        cases digits with
        | nil => exact absurd rfl h.1
        | cons c digits =>
            have hc := h.2 c (by simp)
            apply readSign_of_ne
            · rintro rfl
              exact absurd hc (by decide)
            · rintro rfl
              exact absurd hc (by decide)
      rw [readExponent?, if_pos he, hsign, readDigits?_all h.1 h.2]
      rfl
  | @signed e sign digits he hsign h =>
      refine ⟨?_, endsDigits_letter he _⟩
      have hread : readSign (sign :: digits) = (sign, digits) := by
        rcases hsign with rfl | rfl <;> rfl
      rw [readExponent?, if_pos he, hread, readDigits?_all h.1 h.2]
      rfl

/-- **A number is read, in whatever way it is spelled**, in front of anything that none goes on
into. -/
theorem readNumber?_spellsNumber {spelled spelling rest : Text} (h : SpellsNumber spelled spelling)
    (hends : EndsNumbers rest) : readNumber? (spelled ++ rest) = some (spelling, rest) := by
  cases h with
  | parts hsign hwhole hplaces hexponent =>
      obtain ⟨hwhole, hdigits⟩ := hwhole.read
      obtain ⟨hplaces, hpoint⟩ := hplaces.read
      obtain ⟨hexponent, hletter⟩ := hexponent.read
      rw [readNumber?_append hends,
        readNumber?_of_parts hsign hdigits hwhole hpoint hplaces hletter hexponent]
      rfl

/-! ## Tokens -/

theorem spellsToken_of_mark? {c : Char} {token : Token} (h : mark? c = some token) :
    SpellsToken [c] token := by
  unfold mark? at h
  split_ifs at h with hc hc hc hc hc hc
  all_goals
    obtain rfl := hc
    obtain rfl := Option.some.inj h
    constructor

theorem spellsToken_of_word? {c : Char} {others : Text} {token : Token}
    (h : word? c = some (others, token)) : SpellsToken (c :: others) token := by
  unfold word? at h
  split_ifs at h with hc hc hc
  all_goals
    obtain rfl := hc
    obtain ⟨rfl, rfl⟩ := Prod.mk.inj (Option.some.inj h)
  · exact .null
  · exact .true
  · exact .false

/-- **What is read as a token is spelled so.** -/
theorem spellsToken_of_next? {text left : Text} {token : Token}
    (h : next? text = some (token, left)) :
    ∃ spelled, SpellsToken spelled token ∧ text = spelled ++ left := by
  cases text with
  | nil => simp [next?] at h
  | cons c rest =>
      unfold next? at h
      cases hmark : mark? c with
      | some mark =>
          simp only [hmark, Option.some.injEq, Prod.mk.injEq] at h
          obtain ⟨rfl, rfl⟩ := h
          exact ⟨[c], spellsToken_of_mark? hmark, rfl⟩
      | none =>
          cases hword : word? c with
          | some word =>
              obtain ⟨others, meant⟩ := word
              simp only [hmark, hword, Option.map_eq_some_iff, Prod.mk.injEq] at h
              obtain ⟨_, hstrip, rfl, rfl⟩ := h
              refine ⟨c :: others, spellsToken_of_word? hword, ?_⟩
              rw [stripPrefix?_eq_some_iff.mp hstrip]
              rfl
          | none =>
              simp only [hmark, hword] at h
              split at h
              · next hquote =>
                  simp only [Option.map_eq_some_iff, Prod.mk.injEq, Prod.exists] at h
                  obtain ⟨text, _, hread, rfl, rfl⟩ := h
                  obtain ⟨spelled, rfl, hspelled⟩ := spellsText_of_readString? hread
                  exact ⟨_, .string hspelled, by simp [hquote]⟩
              · simp only [Option.map_eq_some_iff, Prod.mk.injEq, Prod.exists] at h
                obtain ⟨spelling, _, hread, rfl, rfl⟩ := h
                obtain ⟨spelled, hspelled, heq⟩ := spellsNumber_of_readNumber? hread
                exact ⟨spelled, .number hspelled, heq⟩

/-- **A text spells the tokens that are read from it.** -/
theorem spellsTokens_of_tokens? {text : Text} {tokens : List Token}
    (h : tokens? text = some tokens) : SpellsTokens text tokens := by
  fun_induction tokens? text generalizing tokens with
  | case1 =>
      obtain rfl := Option.some.inj h
      exact .nil
  | case2 c rest hgap ih => exact .gap hgap (ih h)
  | case3 c rest hgap hnone => simp at h
  | case4 c rest hgap token left hnext _ ih =>
      obtain ⟨others, hothers, rfl⟩ := Option.map_eq_some_iff.mp h
      obtain ⟨spelled, hspelled, heq⟩ := spellsToken_of_next? hnext
      rw [heq]
      exact .token hspelled (ih hothers)

/-- A number begins with a digit or with a minus sign. -/
theorem SpellsNumber.head {spelled spelling : Text} (h : SpellsNumber spelled spelling) :
    ∃ c rest, spelled = c :: rest ∧ isNumberChar c = true := by
  cases h with
  | parts hsign hwhole _ _ =>
      rcases hsign with rfl | rfl
      · cases hwhole with
        | zero => exact ⟨'0', _, rfl, by decide⟩
        | @digits c digits hc hdigits =>
            have hfirst : isDecimal c = true := hdigits.2 c (by simp)
            exact ⟨c, _, rfl, isNumberChar_of_isDecimal hfirst⟩
      · exact ⟨'-', _, rfl, by decide⟩

/-- **A token is read, in whatever way it is spelled**; a number if none goes on behind it. -/
theorem next?_spellsToken {spelled rest : Text} {token : Token} (h : SpellsToken spelled token)
    (hends : ∀ spelling, token = .number spelling → EndsNumbers rest) :
    next? (spelled ++ rest) = some (token, rest) := by
  cases h with
  | openArray | closeArray | openObject | closeObject | comma | colon => rfl
  | null | true | false => rfl
  | @number _ spelling h =>
      have hread := readNumber?_spellsNumber h (hends spelling rfl)
      obtain ⟨c, digits, rfl, hc⟩ := h.head
      exact next?_number hc hread
  | @string spelled _ h =>
      have hread := readString?_spellsText h rest
      rw [List.cons_append, List.append_assoc]
      exact next?_quote hread

/-! ## Trees -/

/-- **`EndsValues tokens`** — there is no token, or the first may stand behind a value. -/
def EndsValues (tokens : List Token) : Prop :=
  ∀ token ∈ tokens.head?, token = .comma ∨ token = .closeArray ∨ token = .closeObject

/-- **`Apart tokens`** — every number has the end of a value behind it. -/
def Apart : List Token → Prop
  | [] => True
  | .number _ :: tokens => EndsValues tokens ∧ Apart tokens
  | _ :: tokens => Apart tokens

theorem endsValues_cons {token : Token}
    (h : token = .comma ∨ token = .closeArray ∨ token = .closeObject) (tokens : List Token) :
    EndsValues (token :: tokens) := by
  intro other hother
  obtain rfl : token = other := by simpa using hother
  exact h

mutual

/-- The tokens of a tree are apart. -/
theorem apart_toTokens (tree : Json) {tokens : List Token} (hends : EndsValues tokens)
    (h : Apart tokens) : Apart (toTokens tree ++ tokens) := by
  cases tree with
  | null | bool | string => exact h
  | number spelling => exact ⟨hends, h⟩
  | array items =>
      cases items with
      | nil => exact h
      | cons item items =>
          obtain ⟨hends, hitems⟩ := apart_itemTokens items h
          rw [toTokens, List.cons_append, List.append_assoc, List.append_assoc]
          exact apart_toTokens item hends hitems
  | object members =>
      cases members with
      | nil => exact h
      | cons member members =>
          obtain ⟨key, value⟩ := member
          obtain ⟨hends, hmembers⟩ := apart_memberTokens members h
          rw [toTokens, List.cons_append, List.cons_append, List.cons_append, List.append_assoc,
            List.append_assoc]
          exact apart_toTokens value hends hmembers

theorem apart_itemTokens (items : List Json) {tokens : List Token} (h : Apart tokens) :
    EndsValues (itemTokens items ++ .closeArray :: tokens) ∧
      Apart (itemTokens items ++ .closeArray :: tokens) := by
  cases items with
  | nil => exact ⟨endsValues_cons (by simp) _, h⟩
  | cons item items =>
      obtain ⟨hends, hitems⟩ := apart_itemTokens items h
      rw [itemTokens, List.cons_append, List.append_assoc]
      exact ⟨endsValues_cons (by simp) _, apart_toTokens item hends hitems⟩

theorem apart_memberTokens (members : List (Text × Json)) {tokens : List Token} (h : Apart tokens) :
    EndsValues (memberTokens members ++ .closeObject :: tokens) ∧
      Apart (memberTokens members ++ .closeObject :: tokens) := by
  cases members with
  | nil => exact ⟨endsValues_cons (by simp) _, h⟩
  | cons member members =>
      obtain ⟨key, value⟩ := member
      obtain ⟨hends, hmembers⟩ := apart_memberTokens members h
      rw [memberTokens, List.cons_append, List.cons_append, List.cons_append, List.append_assoc]
      exact ⟨endsValues_cons (by simp) _, apart_toTokens value hends hmembers⟩

end

mutual

/-- Every key of a tree is one of its tokens. -/
theorem string_mem_toTokens {key : Text} (tree : Json) (h : key ∈ keys tree) :
    .string key ∈ toTokens tree := by
  cases tree with
  | null | bool | number | string => simp [keys] at h
  | array items =>
      rw [keys] at h
      cases items with
      | nil => simp [itemKeys] at h
      | cons item items =>
          rw [itemKeys, List.mem_append] at h
          rw [toTokens, List.mem_cons, List.mem_append, List.mem_append]
          rcases h with hitem | hitems
          · exact .inr (.inl (.inl (string_mem_toTokens item hitem)))
          · exact .inr (.inl (.inr (string_mem_itemTokens items hitems)))
  | object members =>
      rw [keys] at h
      cases members with
      | nil => simp [memberKeys] at h
      | cons member members =>
          obtain ⟨k, value⟩ := member
          rw [memberKeys, List.mem_cons, List.mem_append] at h
          rw [toTokens, List.mem_cons, List.mem_cons, List.mem_cons, List.mem_append,
            List.mem_append]
          rcases h with rfl | hvalue | hmembers
          · exact .inr (.inl rfl)
          · exact .inr (.inr (.inr (.inl (.inl (string_mem_toTokens value hvalue)))))
          · exact .inr (.inr (.inr (.inl (.inr (string_mem_memberTokens members hmembers)))))

theorem string_mem_itemTokens {key : Text} (items : List Json) (h : key ∈ itemKeys items) :
    .string key ∈ itemTokens items := by
  cases items with
  | nil => simp [itemKeys] at h
  | cons item items =>
      rw [itemKeys, List.mem_append] at h
      rw [itemTokens, List.mem_cons, List.mem_append]
      rcases h with hitem | hitems
      · exact .inr (.inl (string_mem_toTokens item hitem))
      · exact .inr (.inr (string_mem_itemTokens items hitems))

theorem string_mem_memberTokens {key : Text} (members : List (Text × Json))
    (h : key ∈ memberKeys members) : .string key ∈ memberTokens members := by
  cases members with
  | nil => simp [memberKeys] at h
  | cons member members =>
      obtain ⟨k, value⟩ := member
      rw [memberKeys, List.mem_cons, List.mem_append] at h
      rw [memberTokens, List.mem_cons, List.mem_cons, List.mem_cons, List.mem_append]
      rcases h with rfl | hvalue | hmembers
      · exact .inr (.inl rfl)
      · exact .inr (.inr (.inr (.inl (string_mem_toTokens value hvalue))))
      · exact .inr (.inr (.inr (.inr (string_mem_memberTokens members hmembers))))

end

/-- Where a value ends, no number goes on. -/
theorem endsNumbers_of_spellsTokens {text : Text} {tokens : List Token}
    (h : SpellsTokens text tokens) (hends : EndsValues tokens) : EndsNumbers text := by
  cases h with
  | nil => exact endsNumbers_nil
  | gap hgap _ => exact endsNumbers_cons (isNumberChar_of_isSpace (isSpace_of_isGap hgap)) _
  | @token _ _ token _ hspelled _ =>
      rcases hends token rfl with rfl | rfl | rfl
      all_goals
        cases hspelled
        exact endsNumbers_cons (by decide) _

/-- **Tokens are read as they are spelled**, if every number has the end of a value behind it. -/
theorem tokens?_spellsTokens {text : Text} {tokens : List Token} (h : SpellsTokens text tokens)
    (hapart : Apart tokens) : tokens? text = some tokens := by
  induction h with
  | nil => exact tokens?_nil
  | gap hgap _ ih =>
      rw [tokens?_gap hgap]
      exact ih hapart
  | @token _ rest token tokens hspelled hrest ih =>
      have hends : ∀ spelling, token = .number spelling → EndsNumbers rest := by
        rintro spelling rfl
        exact endsNumbers_of_spellsTokens hrest hapart.1
      have hothers : Apart tokens := by
        cases token with
        | number => exact hapart.2
        | _ => exact hapart
      rw [tokens?_of_next? (next?_spellsToken hspelled hends), ih hothers]
      rfl

/-- **`Spells text tree`** — the text is JSON, and spells this tree: the members of an object are
those that are written, in the order in which they are written. -/
def Spells (text : Text) (tree : Json) : Prop := SpellsTokens text (toTokens tree)

/-- **A text spells a tree exactly if the tokens of the tree are read from it.** -/
theorem spells_iff {text : Text} {tree : Json} :
    Spells text tree ↔ tokens? text = some (toTokens tree) := by
  constructor
  · intro h
    have hapart := apart_toTokens tree (by simp [EndsValues]) (show Apart [] from trivial)
    rw [List.append_nil] at hapart
    exact tokens?_spellsTokens h hapart
  · exact spellsTokens_of_tokens?

/-- A text is read as what the tree means that it spells. -/
theorem Spells.ofText?_eq {text : Text} {tree : Json} (h : Spells text tree) :
    ofText? text = meaning? maxDepth tree := by
  rw [ofText?, spells_iff.mp h]
  exact ofTokens?_eq_meaning? tree

/-- What is written spells the value. -/
theorem spells_write (style : Style) {depth : Nat} {value : Json} (h : Readable depth value) :
    Spells (write style 0 value) value :=
  spells_iff.mpr (tokens?_write style h)

/-! ## One tree -/

/-- No value begins with the end of an array. -/
theorem toTokens_append_ne (tree : Json) (tokens others : List Token) :
    toTokens tree ++ tokens ≠ .closeArray :: others := by
  cases tree with
  | null | bool | number | string => simp [toTokens]
  | array items => cases items <;> simp [toTokens]
  | object members =>
      cases members with
      | nil => simp [toTokens]
      | cons member members => simp [toTokens]

mutual

/-- Tokens begin with those of one tree at most. -/
theorem toTokens_append_inj (tree : Json) {other : Json} {tokens others : List Token}
    (h : toTokens tree ++ tokens = toTokens other ++ others) : tree = other ∧ tokens = others := by
  cases tree with
  | null | bool | number | string =>
      cases other with
      | null | bool | number | string => simp_all [toTokens]
      | array items => cases items <;> simp [toTokens] at h
      | object members =>
          cases members with
          | nil => simp [toTokens] at h
          | cons member members => simp [toTokens] at h
  | array items =>
      cases other with
      | null | bool | number | string => cases items <;> simp [toTokens] at h
      | object members =>
          cases items <;> cases members <;> simp [toTokens] at h
      | array items' =>
          cases items with
          | nil =>
              cases items' with
              | nil => simpa [toTokens] using h
              | cons item' items' =>
                  simp only [toTokens, List.cons_append, List.cons.injEq, true_and,
                    List.append_assoc] at h
                  exact absurd h.symm (toTokens_append_ne item' _ _)
          | cons item items =>
              cases items' with
              | nil =>
                  simp only [toTokens, List.cons_append, List.cons.injEq, true_and,
                    List.append_assoc] at h
                  exact absurd h (toTokens_append_ne item _ _)
              | cons item' items' =>
                  simp only [toTokens, List.cons_append, List.cons.injEq, true_and,
                    List.append_assoc] at h
                  obtain ⟨rfl, hrest⟩ := toTokens_append_inj item h
                  obtain ⟨rfl, rfl⟩ := itemTokens_append_inj items hrest
                  exact ⟨rfl, rfl⟩
  | object members =>
      cases other with
      | null | bool | number | string => cases members <;> simp [toTokens] at h
      | array items => cases items <;> cases members <;> simp [toTokens] at h
      | object members' =>
          cases members with
          | nil =>
              cases members' with
              | nil => simpa [toTokens] using h
              | cons member' members' => simp [toTokens] at h
          | cons member members =>
              obtain ⟨key, value⟩ := member
              cases members' with
              | nil => simp [toTokens] at h
              | cons member' members' =>
                  obtain ⟨key', value'⟩ := member'
                  simp only [toTokens, List.cons_append, List.cons.injEq, Token.string.injEq,
                    true_and, List.append_assoc] at h
                  obtain ⟨rfl, h⟩ := h
                  obtain ⟨rfl, hrest⟩ := toTokens_append_inj value h
                  obtain ⟨rfl, rfl⟩ := memberTokens_append_inj members hrest
                  exact ⟨rfl, rfl⟩

theorem itemTokens_append_inj (items : List Json) {items' : List Json} {tokens others : List Token}
    (h : itemTokens items ++ .closeArray :: tokens = itemTokens items' ++ .closeArray :: others) :
    items = items' ∧ tokens = others := by
  cases items with
  | nil =>
      cases items' with
      | nil => simpa [itemTokens] using h
      | cons item' items' => simp [itemTokens] at h
  | cons item items =>
      cases items' with
      | nil => simp [itemTokens] at h
      | cons item' items' =>
          simp only [itemTokens, List.cons_append, List.cons.injEq, true_and,
            List.append_assoc] at h
          obtain ⟨rfl, hrest⟩ := toTokens_append_inj item h
          obtain ⟨rfl, rfl⟩ := itemTokens_append_inj items hrest
          exact ⟨rfl, rfl⟩

theorem memberTokens_append_inj (members : List (Text × Json)) {members' : List (Text × Json)}
    {tokens others : List Token}
    (h : memberTokens members ++ .closeObject :: tokens =
      memberTokens members' ++ .closeObject :: others) : members = members' ∧ tokens = others := by
  cases members with
  | nil =>
      cases members' with
      | nil => simpa [memberTokens] using h
      | cons member' members' => simp [memberTokens] at h
  | cons member members =>
      obtain ⟨key, value⟩ := member
      cases members' with
      | nil => simp [memberTokens] at h
      | cons member' members' =>
          obtain ⟨key', value'⟩ := member'
          simp only [memberTokens, List.cons_append, List.cons.injEq, Token.string.injEq, true_and,
            List.append_assoc] at h
          obtain ⟨rfl, h⟩ := h
          obtain ⟨rfl, hrest⟩ := toTokens_append_inj value h
          obtain ⟨rfl, rfl⟩ := memberTokens_append_inj members hrest
          exact ⟨rfl, rfl⟩

end

/-- **A text spells one tree at most.** -/
theorem Spells.iff_eq {text : Text} {tree : Json} (h : Spells text tree) (other : Json) :
    Spells text other ↔ other = tree := by
  constructor
  · intro hother
    have htokens := Option.some.inj ((spells_iff.mp hother).symm.trans (spells_iff.mp h))
    have happend : toTokens other ++ [] = toTokens tree ++ [] := by rw [htokens]
    exact (toTokens_append_inj other happend).1
  · rintro rfl
    exact h

end PlainRequest.Json
