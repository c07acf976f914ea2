/-
# PlainRequest.Proofs.Request.Fields — form fields that are written are read back

A directive is written with a backslash before every parenthesis of its argument and read without
them, so the argument comes back whatever it holds, a line feed apart. Text that looks like a directive
as a whole is the one text that cannot be written as itself.
-/

import PlainRequest.Proofs.Keyed
import PlainRequest.Proofs.Text.Cutting
import PlainRequest.Request.Head

namespace PlainRequest

open Text

namespace FieldValue

/-! ## Escaped arguments -/

theorem escape_cons (c : Char) (rest : Text) :
    escape (c :: rest) = (if c = '(' ∨ c = ')' then ['\\', c] else [c]) ++ escape rest := by
  rw [escape, List.flatMap_cons]
  rfl

/-- An escaped text never begins with a parenthesis. -/
theorem head?_escape (text : Text) : ∀ c ∈ (escape text).head?, ¬ (c = '(' ∨ c = ')') := by
  intro c hc
  cases text with
  | nil => simp [escape] at hc
  | cons d rest =>
      rw [escape_cons] at hc
      split at hc
      · obtain rfl : '\\' = c := by simpa using hc
        decide
      · next hd =>
          obtain rfl : d = c := by simpa using hc
          exact hd

/-- A backslash that no parenthesis follows is kept. -/
theorem unescape_backslash {rest : Text} (h : ∀ c ∈ rest.head?, ¬ (c = '(' ∨ c = ')')) :
    unescape ('\\' :: rest) = '\\' :: unescape rest := by
  cases rest with
  | nil => rfl
  | cons d others =>
      have hd : ¬ ('\\' = '\\' ∧ (d = '(' ∨ d = ')')) := fun hboth => h d rfl hboth.2
      rw [unescape, if_neg hd]

/-- **Escapes are undone exactly**, also behind backslashes that the text has itself. -/
theorem unescape_escape (text : Text) : unescape (escape text) = text := by
  induction text with
  | nil => rfl
  | cons c rest ih =>
      rw [escape_cons]
      split
      · next hparenthesis =>
          have hc : c ≠ '\\' := by
            rintro rfl
            revert hparenthesis
            decide
          show unescape ('\\' :: c :: escape rest) = c :: rest
          rw [unescape, if_pos ⟨rfl, hparenthesis⟩, unescape_cons hc, ih]
      · show unescape (c :: escape rest) = c :: rest
        by_cases hc : c = '\\'
        · -- what follows is escaped, so it does not begin with a parenthesis
          subst hc
          rw [unescape_backslash (head?_escape rest), ih]
        · rw [unescape_cons hc, ih]

theorem newline_notMem_escape {text : Text} (h : '\n' ∉ text) : '\n' ∉ escape text := by
  intro hmem
  obtain ⟨c, hc, hline⟩ := List.mem_flatMap.mp hmem
  split at hline
  · next hparenthesis =>
      have hsame : '\n' = c := by simpa using hline
      rw [← hsame] at hparenthesis
      revert hparenthesis
      decide
  · obtain rfl : '\n' = c := by simpa using hline
    exact h hc

/-! ## Directives -/

/-- **`IsDirective value`** — the value is `!file(…)` or `!content(…)` from its first character to its
last, on one line. -/
def IsDirective (value : Text) : Prop :=
  ∃ name argument, (name = "file".toList ∨ name = "content".toList) ∧ '\n' ∉ argument ∧
    value = ['!'] ++ name ++ ['('] ++ argument ++ [')']

/-- A directive has one name. -/
theorem argument?_of_other {name other argument : Text} {c d : Char}
    (hname : name.head? = some c) (hother : other.head? = some d) (hne : c ≠ d) :
    argument? name (['!'] ++ other ++ ['('] ++ argument ++ [')']) = none := by
  rw [Option.eq_none_iff_forall_ne_some]
  intro found hfound
  obtain ⟨hvalue, -⟩ := argument?_eq_some_iff.mp hfound
  cases name with
  | nil => simp at hname
  | cons first name =>
      cases other with
      | nil => simp at hother
      | cons first' other =>
          obtain rfl : first = c := by simpa using hname
          obtain rfl : first' = d := by simpa using hother
          simp only [List.cons_append, List.nil_append, List.cons.injEq] at hvalue
          exact hne hvalue.2.1.symm

/-- Text that is no directive is read as itself. -/
theorem ofText_of_not_directive {value : Text} (h : ¬ IsDirective value) :
    ofText value = literal value := by
  have hnone : ∀ name, name = "file".toList ∨ name = "content".toList →
      argument? name value = none := by
    intro name hname
    rw [Option.eq_none_iff_forall_ne_some]
    intro argument hargument
    obtain ⟨hvalue, hline⟩ := argument?_eq_some_iff.mp hargument
    exact h ⟨name, argument, hname, hline, hvalue⟩
  rw [ofText, hnone _ (.inl rfl), hnone _ (.inr rfl)]

theorem ofText_of_file {value argument : Text}
    (h : argument? "file".toList value = some argument) : ofText value = file (unescape argument) := by
  rw [ofText, h]

theorem ofText_of_content {value argument : Text}
    (h : argument? "content".toList value = some argument) :
    ofText value = content (unescape argument) := by
  have hfile : argument? "file".toList value = none := by
    rw [(argument?_eq_some_iff.mp h).1]
    exact argument?_of_other (c := 'f') (d := 'c') rfl rfl (by decide)
  rw [ofText, hfile, h]

/-- **`value.Writable`** — the value can stand on a form line: text if it is no directive as a whole, a
path or a content if it stays within one line. -/
inductive Writable : FieldValue → Prop
  | literal {text : Text} (h : ¬ IsDirective text) : Writable (.literal text)
  | file {path : Text} (h : '\n' ∉ path) : Writable (.file path)
  | content {text : Text} (h : '\n' ∉ text) : Writable (.content text)

/-- **A field value that is written is read back.** -/
theorem ofText_toText {value : FieldValue} (h : value.Writable) : ofText value.toText = value := by
  cases h with
  | literal hdirective => exact ofText_of_not_directive hdirective
  | @file path hline =>
      have hargument : argument? "file".toList (toText (.file path)) = some (escape path) :=
        argument?_eq_some_iff.mpr ⟨rfl, newline_notMem_escape hline⟩
      rw [ofText_of_file hargument, unescape_escape]
  | @content text hline =>
      have hargument : argument? "content".toList (toText (.content text)) = some (escape text) :=
        argument?_eq_some_iff.mpr ⟨rfl, newline_notMem_escape hline⟩
      rw [ofText_of_content hargument, unescape_escape]

end FieldValue

/-! ## Bodies -/

namespace Body

/-- **`body.Writable`** — the lines of the body tell what it is: raw text is empty or has a line without
`=`; a form has a field, and its names are distinct, hold no `=` and stand before values that can be
written. -/
inductive Writable : Body → Prop
  | empty : Writable (.raw [])
  | raw {text : Text} (hne : text ≠ []) (h : ∃ line ∈ splitAll '\n' text, '=' ∉ line) :
      Writable (.raw text)
  | form {fields : List (Text × FieldValue)} (hne : fields ≠ [])
      (hdistinct : (fields.map Prod.fst).Nodup)
      (h : ∀ field ∈ fields, '=' ∉ field.1 ∧ field.2.Writable) : Writable (.form fields)

theorem toLines_raw {text : Text} (h : text ≠ []) : toLines (.raw text) = splitAll '\n' text := by
  cases text with
  | nil => exact absurd rfl h
  | cons c rest => rfl

/-- One line without `=` makes all lines raw text. -/
theorem ofLines_of_notMem {lines : List Text} (h : ∃ line ∈ lines, '=' ∉ line) :
    ofLines lines = .raw (joinWith ['\n'] lines) := by
  obtain ⟨line, hline, hnot⟩ := h
  rw [ofLines, if_neg]
  intro hall
  rw [Bool.and_eq_true, List.all_eq_true] at hall
  have hmem := hall.2 line hline
  rw [List.contains_iff_mem] at hmem
  exact hnot hmem

/-- The line of a field. -/
def fieldLine (field : Text × FieldValue) : Text := field.1 ++ ['='] ++ field.2.toText

theorem formLines_fieldLine {fields : List (Text × FieldValue)}
    (h : ∀ field ∈ fields, '=' ∉ field.1 ∧ field.2.Writable) :
    formLines (fields.map fieldLine) = fields := by
  induction fields with
  | nil => rfl
  | cons field fields ih =>
      obtain ⟨name, value⟩ := field
      obtain ⟨hname, hvalue⟩ := h (name, value) (by simp)
      have hrest := ih fun other hmem => h other (List.mem_cons_of_mem _ hmem)
      have hsplit : splitFirst? '=' (fieldLine (name, value)) = some (name, value.toText) := by
        rw [fieldLine, List.append_assoc]
        exact Line.splitFirst?_append hname
      rw [formLines] at hrest ⊢
      rw [List.map_cons, List.filterMap_cons, hsplit]
      simp only [Option.map_some, FieldValue.ofText_toText hvalue, hrest]

/-- **A body that is written is read back.** -/
theorem ofLines_toLines {body : Body} (h : body.Writable) : ofLines body.toLines = body := by
  cases h with
  | empty => rfl
  | @raw text hne hline =>
      rw [toLines_raw hne, ofLines_of_notMem hline, joinWith_splitAll]
  | @form fields hne hdistinct hfields =>
      have hall : (! (fields.map fieldLine).isEmpty &&
          (fields.map fieldLine).all (·.contains '=')) = true := by
        rw [Bool.and_eq_true]
        refine ⟨by simpa using hne, ?_⟩
        rw [List.all_eq_true]
        intro line hline
        obtain ⟨field, -, rfl⟩ := List.mem_map.mp hline
        rw [List.contains_iff_mem, fieldLine]
        simp
      show ofLines (fields.map fieldLine) = .form fields
      rw [ofLines, if_pos hall, formLines_fieldLine hfields, Keyed.putAll_of_nodup]
      · rfl
      · exact hdistinct

end Body

end PlainRequest
