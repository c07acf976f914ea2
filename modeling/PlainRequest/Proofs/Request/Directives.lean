/-
# PlainRequest.Proofs.Request.Directives — what a directive names

The argument of a directive loses every backslash that stands directly before a parenthesis. Which ones these
are is seen on the argument as it is written, at all places at once: dropping one backslash never puts another
one before a parenthesis that was not there already. So the backslashes before opening parentheses and those
before closing ones may also be dropped one kind after the other, by replacing, and nothing that the first
replacing leaves is taken for more by the second.
-/

import PlainRequest.Proofs.Request.Fields
import PlainRequest.Proofs.Text.Replacing

namespace PlainRequest.FieldValue

open Text

/-! ## Backslashes before parentheses -/

/-- Is there a backslash at a place, and a parenthesis at the next one? -/
def isMark (text : Text) (place : Nat) : Bool :=
  text[place]? = some '\\' && (text[place + 1]? = some '(' || text[place + 1]? = some ')')

/-- **`unmarked text`** — the characters of the text at all places but those of a backslash with a
parenthesis behind it. -/
def unmarked (text : Text) : Text :=
  (text.zipIdx.filter fun (_, place) => ! isMark text place).map Prod.fst

/-- Drop each backslash that a character of a class follows. -/
def dropMarks (p : Char → Bool) : Text → Text
  | [] => []
  | c :: rest => if c = '\\' ∧ rest.head?.any p then dropMarks p rest else c :: dropMarks p rest

/-- Is the character a parenthesis? -/
def isParenthesis (c : Char) : Bool := c == '(' || c == ')'

theorem unescape_eq_dropMarks (text : Text) : unescape text = dropMarks isParenthesis text := by
  fun_induction unescape text with
  | case1 => rfl
  | case2 c => simp [dropMarks]
  | case3 c d rest h ih =>
      rw [dropMarks, if_pos, ih]
      simpa [isParenthesis] using h
  | case4 c d rest h ih =>
      rw [dropMarks, if_neg, ih]
      simpa [isParenthesis] using h

theorem unmarked_eq_dropMarks (text : Text) : unmarked text = dropMarks isParenthesis text := by
  induction text with
  | nil => rfl
  | cons c rest ih =>
      -- behind the first character, a place is a mark as it is in the rest
      have hrest : ((rest.zipIdx.map (Prod.map id (· + 1))).filter fun (_, place) =>
          ! isMark (c :: rest) place).map Prod.fst = unmarked rest := by
        rw [List.filter_map, List.map_map]
        rfl
      have hfirst : isMark (c :: rest) 0 = true ↔ c = '\\' ∧ rest.head?.any isParenthesis := by
        cases rest <;> simp [isMark, isParenthesis]
      rw [unmarked, List.zipIdx_cons', List.filter_cons, dropMarks, ← ih, ← hrest]
      by_cases h : isMark (c :: rest) 0 = true
      · rw [if_pos (hfirst.mp h)]
        simp [h]
      · rw [if_neg fun hmark => h (hfirst.mpr hmark)]
        simp [h]

/-! ## One kind after the other -/

section

variable {p q : Char → Bool}

/-- What is dropped is a backslash, and what comes to stand first then is the character behind it. -/
theorem head?_dropMarks (hp : p '\\' = false) (text : Text) :
    (dropMarks p text).head? = text.head? ∨
      text.head? = some '\\' ∧ (dropMarks p text).head?.any p = true := by
  induction text with
  | nil => exact .inl rfl
  | cons c rest ih =>
      rw [dropMarks]
      split
      · next h =>
          obtain ⟨rfl, hmark⟩ := h
          refine .inr ⟨rfl, ?_⟩
          rcases ih with hhead | ⟨hhead, -⟩
          · rwa [hhead]
          · rw [hhead, Option.any_some, hp] at hmark
            cases hmark
      · exact .inl rfl

/-- A pass for one class does not change whether a text begins with a character of the other. -/
theorem any_head?_dropMarks (hp : p '\\' = false) (hq : q '\\' = false)
    (hdisjoint : ∀ c, p c = true → q c = false) (text : Text) :
    (dropMarks p text).head?.any q = text.head?.any q := by
  rcases head?_dropMarks hp text with hhead | ⟨hhead, hmark⟩
  · rw [hhead]
  · -- a backslash was dropped, and what follows it is of the first class
    obtain ⟨c, hc, hclass⟩ := (Option.any_eq_true ..).mp hmark
    rw [hc, hhead, Option.any_some, Option.any_some, hq, hdisjoint c hclass]

/-- **Two passes are one pass**: what the first one leaves is never taken for more by the second. -/
theorem dropMarks_dropMarks (hp : p '\\' = false) (hq : q '\\' = false)
    (hdisjoint : ∀ c, p c = true → q c = false) (text : Text) :
    dropMarks q (dropMarks p text) = dropMarks (fun c => p c || q c) text := by
  have hany : ∀ first : Option Char,
      first.any (fun c => p c || q c) = (first.any p || first.any q) := by
    intro first
    cases first <;> rfl
  induction text with
  | nil => rfl
  | cons c rest ih =>
      have hnext := any_head?_dropMarks hp hq hdisjoint rest
      by_cases hmark : c = '\\' ∧ rest.head?.any p
      · rw [dropMarks, if_pos hmark, ih, dropMarks, if_pos]
        simp [hany, hmark]
      · rw [dropMarks, if_neg hmark, dropMarks, hnext, ih, dropMarks, hany]
        have hsame : (c = '\\' ∧ (rest.head?.any p || rest.head?.any q) = true) ↔
            c = '\\' ∧ rest.head?.any q = true := by
          grind
        simp only [hsame]

end

/-! ## Dropping by replacing -/

section

variable {c : Char}

theorem any_head?_beq_iff {text : Text} :
    text.head?.any (· == c) = true ↔ ∃ rest, text = c :: rest := by
  cases text <;> simp

theorem dropMarks_of_no_mark {text : Text} (h : ¬ ['\\', c] <:+: text) :
    dropMarks (· == c) text = text := by
  induction text with
  | nil => rfl
  | cons d rest ih =>
      have hrest : ¬ ['\\', c] <:+: rest := by
        intro hlater
        exact h (hlater.trans (List.suffix_cons d rest).isInfix)
      rw [dropMarks, if_neg, ih hrest]
      rintro ⟨rfl, hmark⟩
      obtain ⟨after, rfl⟩ := any_head?_beq_iff.mp hmark
      exact h ⟨[], after, rfl⟩

/-- Up to the leftmost backslash before the character, nothing is dropped. -/
theorem dropMarks_of_leftmost (hc : c ≠ '\\') {text before after : Text}
    (h : Leftmost ['\\', c] text before after) :
    dropMarks (· == c) text = before ++ [c] ++ dropMarks (· == c) after := by
  induction before generalizing text with
  | nil =>
      obtain rfl : text = '\\' :: c :: after := h.here
      rw [dropMarks, if_pos ⟨rfl, any_head?_beq_iff.mpr ⟨after, rfl⟩⟩, dropMarks,
        if_neg fun hmark => hc hmark.1]
      rfl
  | cons d before ih =>
      obtain rfl : text = d :: (before ++ ['\\', c] ++ after) := h.here
      rw [dropMarks, if_neg, ih h.tail]
      · rfl
      · -- it would be an occurrence further left
        rintro ⟨rfl, hmark⟩
        obtain ⟨rest, hrest⟩ := any_head?_beq_iff.mp hmark
        have hless := h.least [] rest (by rw [hrest]; rfl)
        simp at hless

theorem dropMarks_of_replaced (hc : c ≠ '\\') {text result : Text}
    (h : Replaced ['\\', c] [c] text result) : result = dropMarks (· == c) text := by
  induction h with
  | done h => exact (dropMarks_of_no_mark h).symm
  | next h _ ih => rw [dropMarks_of_leftmost hc h, ih]

theorem replaceAll_eq_dropMarks (hc : c ≠ '\\') (text : Text) :
    replaceAll ['\\', c] [c] text = dropMarks (· == c) text :=
  dropMarks_of_replaced hc (replaced_replaceAll (by simp) [c] text)

end

/-- **Replacing one kind after the other** drops the marked backslashes, and only these. -/
theorem replaceAll_replaceAll (text : Text) :
    replaceAll ['\\', ')'] [')'] (replaceAll ['\\', '('] ['('] text) = unmarked text := by
  rw [replaceAll_eq_dropMarks (by decide), replaceAll_eq_dropMarks (by decide),
    dropMarks_dropMarks (by decide) (by decide), unmarked_eq_dropMarks]
  · rfl
  · intro c hc
    rw [beq_iff_eq] at hc
    rw [hc]
    decide

/-! ## What a value is read as -/

theorem unescape_eq_unmarked (argument : Text) : unescape argument = unmarked argument := by
  rw [unescape_eq_dropMarks, unmarked_eq_dropMarks]

theorem ofText_file {argument : Text} (h : '\n' ∉ argument) :
    ofText ("!file(".toList ++ argument ++ [')']) = .file (unmarked argument) := by
  have hargument : argument? "file".toList ("!file(".toList ++ argument ++ [')']) = some argument :=
    argument?_eq_some_iff.mpr ⟨rfl, h⟩
  rw [ofText_of_file hargument, unescape_eq_unmarked]

theorem ofText_content {argument : Text} (h : '\n' ∉ argument) :
    ofText ("!content(".toList ++ argument ++ [')']) = .content (unmarked argument) := by
  have hargument : argument? "content".toList ("!content(".toList ++ argument ++ [')']) =
      some argument := argument?_eq_some_iff.mpr ⟨rfl, h⟩
  rw [ofText_of_content hargument, unescape_eq_unmarked]

theorem isDirective_iff {value : Text} :
    IsDirective value ↔ ∃ argument, '\n' ∉ argument ∧
      (value = "!file(".toList ++ argument ++ [')'] ∨
        value = "!content(".toList ++ argument ++ [')']) := by
  constructor
  · rintro ⟨name, argument, rfl | rfl, hline, hvalue⟩
    · exact ⟨argument, hline, .inl hvalue⟩
    · exact ⟨argument, hline, .inr hvalue⟩
  · rintro ⟨argument, hline, hvalue | hvalue⟩
    · exact ⟨"file".toList, argument, .inl rfl, hline, hvalue⟩
    · exact ⟨"content".toList, argument, .inr rfl, hline, hvalue⟩

/-- **The three ways a value can be.** -/
theorem ofText_cases (value : Text) :
    (∃ argument, '\n' ∉ argument ∧ value = "!file(".toList ++ argument ++ [')'] ∧
      ofText value = .file (unmarked argument)) ∨
    (∃ argument, '\n' ∉ argument ∧ value = "!content(".toList ++ argument ++ [')'] ∧
      ofText value = .content (unmarked argument)) ∨
    ¬ IsDirective value ∧ ofText value = .literal value := by
  by_cases hdirective : IsDirective value
  · obtain ⟨argument, hline, rfl | rfl⟩ := isDirective_iff.mp hdirective
    · exact .inl ⟨argument, hline, rfl, ofText_file hline⟩
    · exact .inr (.inl ⟨argument, hline, rfl, ofText_content hline⟩)
  · exact .inr (.inr ⟨hdirective, ofText_of_not_directive hdirective⟩)

theorem ofText_eq_file_iff {value path : Text} :
    ofText value = .file path ↔ ∃ argument, '\n' ∉ argument ∧
      value = "!file(".toList ++ argument ++ [')'] ∧ path = unmarked argument := by
  constructor
  · intro h
    rcases ofText_cases value with ⟨argument, hline, hvalue, hread⟩ | ⟨_, -, -, hread⟩ | ⟨-, hread⟩
    · exact ⟨argument, hline, hvalue, FieldValue.file.inj (h.symm.trans hread)⟩
    · cases h.symm.trans hread
    · cases h.symm.trans hread
  · rintro ⟨argument, hline, rfl, rfl⟩
    exact ofText_file hline

theorem ofText_eq_content_iff {value text : Text} :
    ofText value = .content text ↔ ∃ argument, '\n' ∉ argument ∧
      value = "!content(".toList ++ argument ++ [')'] ∧ text = unmarked argument := by
  constructor
  · intro h
    rcases ofText_cases value with ⟨_, -, -, hread⟩ | ⟨argument, hline, hvalue, hread⟩ | ⟨-, hread⟩
    · cases h.symm.trans hread
    · exact ⟨argument, hline, hvalue, FieldValue.content.inj (h.symm.trans hread)⟩
    · cases h.symm.trans hread
  · rintro ⟨argument, hline, rfl, rfl⟩
    exact ofText_content hline

theorem ofText_eq_literal_iff {value text : Text} :
    ofText value = .literal text ↔ text = value ∧ ¬ IsDirective value := by
  constructor
  · intro h
    rcases ofText_cases value with ⟨_, -, -, hread⟩ | ⟨_, -, -, hread⟩ | ⟨hdirective, hread⟩
    · cases h.symm.trans hread
    · cases h.symm.trans hread
    · exact ⟨FieldValue.literal.inj (h.symm.trans hread), hdirective⟩
  · rintro ⟨rfl, hdirective⟩
    exact ofText_of_not_directive hdirective

/-- **Directives are decoded exactly.** A value is read as a file if and only if it is `!file(`, an argument
within one line and `)`, and as content if and only if it is so with `!content(`; any other value is read as
the text it is. The path, or the content, is the argument without the backslashes that stand directly before
a parenthesis, all at once, and with every other character; to replace those before opening parentheses first
and then those before closing ones comes to the same. So a text within one line that is written with a
backslash before each of its parentheses is what is read from it, whatever backslashes and parentheses it
has. -/
theorem ofText_exact (value : Text) :
    (∀ path, ofText value = .file path ↔ ∃ argument, '\n' ∉ argument ∧
      value = "!file(".toList ++ argument ++ [')'] ∧ path = unmarked argument) ∧
    (∀ text, ofText value = .content text ↔ ∃ argument, '\n' ∉ argument ∧
      value = "!content(".toList ++ argument ++ [')'] ∧ text = unmarked argument) ∧
    (∀ text, ofText value = .literal text ↔ text = value ∧ ¬ ∃ argument, '\n' ∉ argument ∧
      (value = "!file(".toList ++ argument ++ [')'] ∨
        value = "!content(".toList ++ argument ++ [')'])) ∧
    (∀ argument, replaceAll ['\\', ')'] [')'] (replaceAll ['\\', '('] ['('] argument) =
      unmarked argument) ∧
    ∀ text, '\n' ∉ text → ofText ("!file(".toList ++ escape text ++ [')']) = .file text ∧
      ofText ("!content(".toList ++ escape text ++ [')']) = .content text := by
  refine ⟨fun path => ofText_eq_file_iff, fun text => ofText_eq_content_iff, ?_,
    replaceAll_replaceAll, ?_⟩
  · intro text
    rw [ofText_eq_literal_iff, isDirective_iff]
  · intro text hline
    have hfile : ofText (toText (.file text)) = .file text := ofText_toText (.file hline)
    have hcontent : ofText (toText (.content text)) = .content text := ofText_toText (.content hline)
    exact ⟨hfile, hcontent⟩

/-- Backslashes and parentheses in a row, and an argument that looks like a directive. -/
theorem ofText_exact_nested :
    ofText "!file(\\\\(\\)(!content(x\\))".toList = .file "\\()(!content(x)".toList ∧
      replaceAll ['\\', ')'] [')'] (replaceAll ['\\', '('] ['('] "\\\\(\\)".toList) =
        "\\()".toList ∧
      ofText ("!content(".toList ++ escape "!file(\\)\\".toList ++ [')']) =
        .content "!file(\\)\\".toList := by
  obtain ⟨hfile, -, -, -, -⟩ := ofText_exact "!file(\\\\(\\)(!content(x\\))".toList
  obtain ⟨-, -, -, hreplaced, hwritten⟩ := ofText_exact []
  refine ⟨(hfile _).mpr ⟨"\\\\(\\)(!content(x\\)".toList, ?_, ?_, ?_⟩, ?_, ?_⟩
  · decide +kernel
  · decide +kernel
  · decide +kernel
  · rw [hreplaced]
    decide +kernel
  · exact (hwritten _ (by decide +kernel)).2

end PlainRequest.FieldValue
