/-
# PlainRequest.Proofs.Json.Escaping — escaping what is not ASCII changes nothing else

A value can be written with all characters outside ASCII escaped. The text is then the one that is
written without such escapes, character by character: what is ASCII stands as it is, and any other
character is one `\u` escape, or two where UTF-16 needs two code units for it. `Escapes` says this
of two texts without a word about values, and fixes the second text by the first.
-/

import PlainRequest.Proofs.Json.Meaning

namespace PlainRequest.Json

open Text

/-! ## Escaped texts -/

/-- **`LowerUnit digits unit`** — four hexadecimal digits, all in lower case. -/
def LowerUnit (digits : Text) (unit : Nat) : Prop :=
  SpellsUnit digits unit ∧ ∀ d ∈ digits, d ∈ "0123456789abcdef".toList

/-- **`EscapesChar c spelled`** — a character of ASCII as it is, any other by its UTF-16 code units.
-/
inductive EscapesChar (c : Char) : Text → Prop
  | ascii (h : c.toNat < 0x80) : EscapesChar c [c]
  | unit {digits : Text} (hother : 0x80 ≤ c.toNat) (h : LowerUnit digits c.toNat) :
      EscapesChar c ('\\' :: 'u' :: digits)
  | surrogates {first second : Text} {high low : Nat} (hfirst : LowerUnit first high)
      (hsecond : LowerUnit second low) (hhigh : 0xD800 ≤ high ∧ high ≤ 0xDBFF)
      (hlow : 0xDC00 ≤ low ∧ low ≤ 0xDFFF)
      (h : c.toNat = 0x10000 + (high - 0xD800) * 0x400 + (low - 0xDC00)) :
      EscapesChar c ('\\' :: 'u' :: first ++ '\\' :: 'u' :: second)

/-- **`Escapes text escaped`** — the text with every character outside ASCII escaped. -/
inductive Escapes : Text → Text → Prop
  | nil : Escapes [] []
  | cons {c : Char} {spelled rest escaped : Text} (h : EscapesChar c spelled)
      (hrest : Escapes rest escaped) : Escapes (c :: rest) (spelled ++ escaped)

/-- A character of ASCII stands as it is. -/
theorem Escapes.ascii {c : Char} {rest escaped : Text} (h : c.toNat < 0x80)
    (hrest : Escapes rest escaped) : Escapes (c :: rest) (c :: escaped) :=
  .cons (.ascii h) hrest

theorem Escapes.append {text escaped more other : Text} (h : Escapes text escaped)
    (hmore : Escapes more other) : Escapes (text ++ more) (escaped ++ other) := by
  induction h with
  | nil => exact hmore
  | cons hchar _ ih =>
      rw [List.append_assoc]
      exact .cons hchar ih

/-- Of a text that is given, it is computed. -/
theorem ascii_of_all {text : Text} (h : text.all (fun c => decide (c.toNat < 0x80)) = true) :
    ∀ c ∈ text, c.toNat < 0x80 := fun c hc => of_decide_eq_true (List.all_eq_true.mp h c hc)

theorem escapes_of_ascii (text : Text) (h : ∀ c ∈ text, c.toNat < 0x80) : Escapes text text := by
  induction text with
  | nil => exact .nil
  | cons c rest ih =>
      rw [List.forall_mem_cons] at h
      exact .ascii h.1 (ih h.2)

/-! ## There is one way to escape -/

theorem eq_hexDigit {d : Char} {n : Nat} (hlower : d ∈ "0123456789abcdef".toList)
    (h : digitValue? d = some n) : d = hexDigit n := by
  have hall : "0123456789abcdef".toList.all
      (fun d => (digitValue? d).any fun n => d == hexDigit n) = true := by decide
  have hd := List.all_eq_true.mp hall d hlower
  rw [h, Option.any_some, beq_iff_eq] at hd
  exact hd

/-- Digits of one case are known by their number and their value. -/
theorem HexDigits.unique {digits others : Text} {value : Nat} (h : HexDigits digits value)
    (hother : HexDigits others value) (hlength : digits.length = others.length)
    (hlower : ∀ d ∈ digits, d ∈ "0123456789abcdef".toList)
    (hlower' : ∀ d ∈ others, d ∈ "0123456789abcdef".toList) : digits = others := by
  induction h generalizing others with
  | nil => exact (List.length_eq_zero_iff.mp hlength.symm).symm
  | @snoc digits before c n hdigits hc ih =>
      generalize hvalue : before * 16 + n = value at hother
      cases hother with
      | nil => simp at hlength
      | @snoc others before' c' n' hothers hc' =>
          have hn := lt_of_digitValue? hc
          have hn' := lt_of_digitValue? hc'
          obtain ⟨rfl, rfl⟩ : before = before' ∧ n = n' := by omega
          have hlast : c = c' :=
            (eq_hexDigit (hlower c (by simp)) hc).trans (eq_hexDigit (hlower' c' (by simp)) hc').symm
          rw [hlast, ih hothers (by simpa using hlength)
            (fun d hd => hlower d (List.mem_append_left _ hd))
            (fun d hd => hlower' d (List.mem_append_left _ hd))]

theorem LowerUnit.unique {digits others : Text} {unit : Nat} (h : LowerUnit digits unit)
    (hother : LowerUnit others unit) : digits = others :=
  h.1.2.unique hother.1.2 (h.1.1.trans hother.1.1.symm) h.2 hother.2

theorem EscapesChar.unique {c : Char} {spelled other : Text} (h : EscapesChar c spelled)
    (hother : EscapesChar c other) : spelled = other := by
  cases h with
  | ascii hascii =>
      cases hother with
      | ascii _ => rfl
      | unit hlarge _ => omega
      | surrogates _ _ _ _ hlarge => omega
  | unit hother' hdigits =>
      have hsmall := hdigits.1.lt
      cases hother with
      | ascii hascii => omega
      | unit _ hdigits' => rw [hdigits.unique hdigits']
      | surrogates _ _ _ _ hlarge => omega
  | @surrogates first second high low hfirst hsecond hhigh hlow hc =>
      cases hother with
      | ascii hascii => omega
      | unit _ hdigits =>
          have hsmall := hdigits.1.lt
          omega
      | @surrogates first' second' high' low' hfirst' hsecond' hhigh' hlow' hc' =>
          obtain ⟨rfl, rfl⟩ : high = high' ∧ low = low' := by omega
          rw [hfirst.unique hfirst', hsecond.unique hsecond']

/-- **A text is escaped in one way only.** -/
theorem Escapes.unique {text escaped other : Text} (h : Escapes text escaped)
    (hother : Escapes text other) : escaped = other := by
  induction h generalizing other with
  | nil =>
      cases hother
      rfl
  | cons hchar _ ih =>
      cases hother with
      | cons hchar' hrest' => rw [hchar.unique hchar', ih hrest']

theorem LowerUnit.ascii {digits : Text} {unit : Nat} (h : LowerUnit digits unit) :
    ∀ c ∈ '\\' :: 'u' :: digits, c.toNat < 0x80 := by
  have hall : ∀ d ∈ "0123456789abcdef".toList, d.toNat < 0x80 := ascii_of_all (by decide)
  rw [List.forall_mem_cons, List.forall_mem_cons]
  exact ⟨by decide, by decide, fun d hd => hall d (h.2 d hd)⟩

/-- **What is escaped is pure ASCII.** -/
theorem Escapes.isAscii {text escaped : Text} (h : Escapes text escaped) :
    ∀ c ∈ escaped, c.toNat < 0x80 := by
  induction h with
  | nil => simp
  | @cons c spelled rest escaped hchar _ ih =>
      rw [List.forall_mem_append]
      refine ⟨?_, ih⟩
      cases hchar with
      | ascii hascii => simpa using hascii
      | unit _ hdigits => exact hdigits.ascii
      | surrogates hfirst hsecond _ _ _ =>
          rw [List.forall_mem_append]
          exact ⟨hfirst.ascii, hsecond.ascii⟩

/-! ## Strings that are written -/

theorem lowerUnit_hexFour {unit : Nat} (h : unit < 0x10000) : LowerUnit (hexFour unit) unit := by
  have hdigit : ∀ n, hexDigit (n % 16) ∈ "0123456789abcdef".toList := by
    intro n
    have hall : ∀ m : Fin 16, hexDigit m ∈ "0123456789abcdef".toList := by decide
    exact hall ⟨n % 16, Nat.mod_lt _ (by decide)⟩
  refine ⟨spellsUnit_hexFour h, ?_⟩
  simp only [hexFour, List.forall_mem_cons]
  exact ⟨hdigit _, hdigit _, hdigit _, hdigit _, by simp⟩

/-- Outside ASCII, a character is written as it is or by its code units. -/
theorem writeChar_of_not_ascii {c : Char} (h : 0x80 ≤ c.toNat) (escapeNonAscii : Bool) :
    writeChar escapeNonAscii c = if escapeNonAscii then utf16Escape c else [c] := by
  have hne : ∀ d : Char, d.toNat < 0x80 → c ≠ d := by
    rintro d hd rfl
    omega
  unfold writeChar
  rw [if_neg (hne _ (by decide)), if_neg (hne _ (by decide)), if_neg (hne _ (by decide)),
    if_neg (hne _ (by decide)), if_neg (hne _ (by decide)), if_neg (hne _ (by decide)),
    if_neg (hne _ (by decide)), if_neg (by omega), decide_eq_true h, Bool.and_true]

theorem writeChar_of_ascii {c : Char} (h : c.toNat < 0x80) (escapeNonAscii : Bool) :
    writeChar escapeNonAscii c = writeChar false c := by
  unfold writeChar
  rw [decide_eq_false (by omega : ¬ 0x80 ≤ c.toNat), Bool.and_false, Bool.and_false]

theorem escapesChar_utf16Escape {c : Char} (h : 0x80 ≤ c.toNat) :
    EscapesChar c (utf16Escape c) := by
  have hvalid : c.toNat < 0xD800 ∨ 0xDFFF < c.toNat ∧ c.toNat < 0x110000 := c.valid
  unfold utf16Escape
  dsimp only
  split
  · next hsmall => exact .unit h (lowerUnit_hexFour hsmall)
  · exact .surrogates (lowerUnit_hexFour (by omega)) (lowerUnit_hexFour (by omega)) (by omega)
      (by omega) (by omega)

theorem ascii_writeChar {c : Char} (h : c.toNat < 0x80) :
    ∀ d ∈ writeChar false c, d.toNat < 0x80 := by
  have hwritten := written_writeChar false c
  generalize writeChar false c = written at hwritten ⊢
  cases hwritten with
  | @short e hmeans _ =>
      have hall : letterEscapes.all (fun pair => decide (pair.1.toNat < 0x80)) = true := by decide
      have hletter := of_decide_eq_true
        (List.all_eq_true.mp hall _ (mem_letterEscapes_iff.mpr hmeans))
      rw [List.forall_mem_cons, List.forall_mem_singleton]
      exact ⟨by decide, hletter⟩
  | unit hsmall => exact (lowerUnit_hexFour hsmall).ascii
  | surrogates hlarge => omega
  | plain _ _ _ _ => simpa using h

theorem escapes_writeChar (c : Char) : Escapes (writeChar false c) (writeChar true c) := by
  by_cases h : c.toNat < 0x80
  · rw [writeChar_of_ascii h true]
    exact escapes_of_ascii _ (ascii_writeChar h)
  · have hlarge : 0x80 ≤ c.toNat := by omega
    rw [writeChar_of_not_ascii hlarge, writeChar_of_not_ascii hlarge]
    have hescapes := Escapes.cons (escapesChar_utf16Escape hlarge) .nil
    rwa [List.append_nil] at hescapes

theorem escapes_writeString (text : Text) :
    Escapes (writeString false text) (writeString true text) := by
  have htext : Escapes (text.flatMap (writeChar false)) (text.flatMap (writeChar true)) := by
    induction text with
    | nil => exact .nil
    | cons c rest ih => exact (escapes_writeChar c).append ih
  have hquote : Escapes ['"'] ['"'] := escapes_of_ascii _ (ascii_of_all (by decide))
  exact (hquote.append htext).append hquote

/-! ## Values that are written -/

section

variable (indent : Nat)

theorem escapes_newline (depth : Nat) :
    Escapes (newline ⟨indent, false⟩ depth) (newline ⟨indent, true⟩ depth) := by
  apply Escapes.ascii (by decide)
  apply escapes_of_ascii
  intro c hc
  rw [List.eq_of_mem_replicate hc]
  decide

/-- **`WritesEscaped indent value`** — written with escapes, the value is the escaped text of what
is written without. -/
def WritesEscaped (value : Json) : Prop :=
  ∀ depth, Escapes (write ⟨indent, false⟩ depth value) (write ⟨indent, true⟩ depth value)

variable {indent}

theorem escapes_writeItems {items : List Json} (h : ∀ item ∈ items, WritesEscaped indent item)
    (depth : Nat) :
    Escapes (writeItems ⟨indent, false⟩ depth items) (writeItems ⟨indent, true⟩ depth items) := by
  induction items with
  | nil => exact .nil
  | cons item items ih =>
      rw [List.forall_mem_cons] at h
      rw [writeItems_cons, writeItems_cons]
      apply Escapes.ascii (by decide)
      exact (escapes_newline indent depth).append ((h.1 depth).append (ih h.2))

/-- A member on a line of its own, and what follows it. -/
theorem escapes_member {value : Json} (h : WritesEscaped indent value) (depth : Nat) (key : Text)
    {more escaped : Text} (hmore : Escapes more escaped) :
    Escapes
      (newline ⟨indent, false⟩ depth ++ (writeString false key ++ (": ".toList
        ++ (write ⟨indent, false⟩ depth value ++ more))))
      (newline ⟨indent, true⟩ depth ++ (writeString true key ++ (": ".toList
        ++ (write ⟨indent, true⟩ depth value ++ escaped)))) := by
  apply (escapes_newline indent depth).append
  apply (escapes_writeString key).append
  apply Escapes.append (escapes_of_ascii _ (ascii_of_all (by decide)))
  exact (h depth).append hmore

theorem escapes_writeMembers {members : List (Text × Json)}
    (h : ∀ member ∈ members, WritesEscaped indent member.2) (depth : Nat) :
    Escapes (writeMembers ⟨indent, false⟩ depth members)
      (writeMembers ⟨indent, true⟩ depth members) := by
  induction members with
  | nil => exact .nil
  | cons member members ih =>
      obtain ⟨key, value⟩ := member
      rw [List.forall_mem_cons] at h
      rw [writeMembers_cons, writeMembers_cons]
      apply Escapes.ascii (by decide)
      exact escapes_member h.1 depth key (ih h.2)

/-- **Everything is written so.** -/
theorem writesEscaped_of_readable {depth : Nat} {value : Json} (h : Readable depth value) :
    WritesEscaped indent value := by
  induction h with
  | null =>
      intro depth
      exact escapes_of_ascii "null".toList (ascii_of_all (by decide))
  | bool value =>
      intro depth
      cases value with
      | true => exact escapes_of_ascii "true".toList (ascii_of_all (by decide))
      | false => exact escapes_of_ascii "false".toList (ascii_of_all (by decide))
  | number hspelling =>
      intro depth
      have hclass : ∀ c ∈ "0123456789.eE+-".toList, c.toNat < 0x80 :=
        ascii_of_all (by decide)
      apply escapes_of_ascii
      intro c hc
      exact hclass c (mem_of_isNumberChar (hspelling.chars.2 c hc))
  | string text =>
      intro depth
      exact escapes_writeString text
  | @array _ items _ ih =>
      intro depth
      cases items with
      | nil => exact escapes_of_ascii ['[', ']'] (ascii_of_all (by decide))
      | cons item items =>
          rw [List.forall_mem_cons] at ih
          have hclose : Escapes [']'] [']'] := escapes_of_ascii _ (ascii_of_all (by decide))
          rw [write_array_cons, write_array_cons]
          apply Escapes.ascii (by decide)
          apply (escapes_newline indent (depth + 1)).append
          apply (ih.1 (depth + 1)).append
          apply (escapes_writeItems ih.2 (depth + 1)).append
          exact (escapes_newline indent depth).append hclose
  | @object _ members _ _ ih =>
      intro depth
      cases members with
      | nil => exact escapes_of_ascii ['{', '}'] (ascii_of_all (by decide))
      | cons member members =>
          obtain ⟨key, value⟩ := member
          rw [List.forall_mem_cons] at ih
          have hclose : Escapes ['}'] ['}'] := escapes_of_ascii _ (ascii_of_all (by decide))
          rw [write_object_cons, write_object_cons]
          apply Escapes.ascii (by decide)
          apply escapes_member ih.1 (depth + 1) key
          apply (escapes_writeMembers ih.2 (depth + 1)).append
          exact (escapes_newline indent depth).append hclose

end

/-- **Escaping is all that the mode of escaping changes.** A text can be reformatted with escapes
exactly if it can be without, and at every indentation the one result is the escaped text of the
other. So it is pure ASCII, in keys and in values, and it spells the same tree. -/
theorem reformat?_escaped (indent : Nat) (text : Text) :
    ((reformat? ⟨indent, true⟩ text).isSome ↔ (reformat? ⟨indent, false⟩ text).isSome) ∧
      ∀ out, reformat? ⟨indent, false⟩ text = some out →
        ∃ escaped, reformat? ⟨indent, true⟩ text = some escaped ∧
          (∀ other, Escapes out other ↔ other = escaped) ∧
          (∀ c ∈ escaped, c.toNat < 0x80) ∧
          ∃ tree, (∀ spelled, Spells out spelled ↔ spelled = tree) ∧
            ∀ spelled, Spells escaped spelled ↔ spelled = tree := by
  constructor
  · rw [reformat?, reformat?, Option.isSome_map, Option.isSome_map]
  · intro out hout
    obtain ⟨value, hvalue, rfl⟩ := Option.map_eq_some_iff.mp hout
    have hreadable := readable_of_ofText? hvalue
    have hescapes : Escapes (write ⟨indent, false⟩ 0 value) (write ⟨indent, true⟩ 0 value) :=
      writesEscaped_of_readable hreadable 0
    refine ⟨write ⟨indent, true⟩ 0 value, ?_, ?_, hescapes.isAscii, value, ?_, ?_⟩
    · rw [reformat?, hvalue]
      rfl
    · intro other
      constructor
      · intro hother
        exact hother.unique hescapes
      · rintro rfl
        exact hescapes
    · exact (spells_write ⟨indent, false⟩ hreadable).iff_eq
    · exact (spells_write ⟨indent, true⟩ hreadable).iff_eq

/-- A key with a letter outside ASCII, and a value with a character past U+FFFF and a line feed. -/
theorem reformat?_escaped_surrogates :
    reformat? ⟨1, false⟩ "\x7b\"é\":\"😀\\u000a\"\x7d".toList =
        some "\x7b\n \"é\": \"😀\\n\"\n\x7d".toList ∧
      reformat? ⟨1, true⟩ "\x7b\"é\":\"😀\\u000a\"\x7d".toList =
        some "\x7b\n \"\\u00e9\": \"\\ud83d\\ude00\\n\"\n\x7d".toList ∧
      Escapes "\x7b\n \"é\": \"😀\\n\"\n\x7d".toList
        "\x7b\n \"\\u00e9\": \"\\ud83d\\ude00\\n\"\n\x7d".toList := by
  have htokens : tokens? "\x7b\"é\":\"😀\\u000a\"\x7d".toList =
      some [.openObject, .string ['é'], .colon, .string ['😀', '\n'], .closeObject] := by
    decide +kernel
  have hout : reformat? ⟨1, false⟩ "\x7b\"é\":\"😀\\u000a\"\x7d".toList =
      some "\x7b\n \"é\": \"😀\\n\"\n\x7d".toList := by
    rw [reformat?, ofText?, htokens]
    decide +kernel
  have hescaped : reformat? ⟨1, true⟩ "\x7b\"é\":\"😀\\u000a\"\x7d".toList =
      some "\x7b\n \"\\u00e9\": \"\\ud83d\\ude00\\n\"\n\x7d".toList := by
    rw [reformat?, ofText?, htokens]
    decide +kernel
  obtain ⟨escaped, heq, hescapes, -⟩ := (reformat?_escaped 1 _).2 _ hout
  exact ⟨hout, hescaped, (hescapes _).mpr (Option.some.inj (hescaped.symm.trans heq))⟩

end PlainRequest.Json
