/-
# PlainRequest.Proofs.Json.Layout — the lines of a value that is written

Whatever a value holds, the text that is written for it has no control character but line feeds, and
every line of it is some spaces and then a character that is neither white space nor a number sign. So
no line is blank and none begins with a number sign, and the lines of the text are its pieces between
line feeds. The first line of an array or an object is one or two brackets.
-/

import PlainRequest.Proofs.Json.RoundTrip
import PlainRequest.Proofs.Line
import PlainRequest.Proofs.Text.Cutting

namespace PlainRequest.Json

open Text

/-! ## Indented lines -/

/-- **`Indented line`** — some spaces, then a visible character that opens no comment. -/
inductive Indented : Text → Prop
  | visible {c : Char} {rest : Text} (hspace : isSpace c = false) (hmark : c ≠ '#') :
      Indented (c :: rest)
  | space {rest : Text} (h : Indented rest) : Indented (' ' :: rest)

theorem Indented.append {text : Text} (h : Indented text) (more : Text) :
    Indented (text ++ more) := by
  induction h with
  | visible hspace hmark => exact .visible hspace hmark
  | space _ ih => exact .space ih

theorem Indented.spaces {text : Text} (h : Indented text) (count : Nat) :
    Indented (List.replicate count ' ' ++ text) := by
  induction count with
  | zero => exact h
  | succ count ih => exact .space ih

theorem Indented.ne_nil {line : Text} (h : Indented line) : line ≠ [] := by
  rintro rfl
  cases h

theorem Indented.not_blank {line : Text} (h : Indented line) : isBlank line = false := by
  induction h with
  | visible hspace _ => simp [isBlank, hspace]
  | space _ ih =>
      rw [isBlank, List.all_cons, show List.all _ isSpace = false from ih]
      simp

theorem Indented.not_comment {line : Text} (h : Indented line) : Line.isComment line = false := by
  cases h with
  | visible _ hmark => simp [Line.isComment, hmark]
  | space _ => simp [Line.isComment]

/-- Reading keeps every line of this kind. -/
theorem significant_of_indented {lines : List Text} (h : ∀ line ∈ lines, Indented line) :
    Line.significant lines = lines := by
  apply Line.significant_eq_self
  intro line hline
  exact ⟨(h line hline).not_comment, (h line hline).not_blank⟩

/-! ## Texts of indented lines -/

/-- Is the character no control character? -/
def isPrintable (c : Char) : Bool := 0x20 ≤ c.toNat

/-- **`Laid text`** — all characters are printable but for line feeds, and every line feed is followed
by an indented line. -/
def Laid : Text → Prop
  | [] => True
  | c :: rest => (isPrintable c = true ∨ c = '\n' ∧ Indented rest) ∧ Laid rest

theorem laid_of_printable {text : Text} (h : text.all isPrintable = true) : Laid text := by
  induction text with
  | nil => trivial
  | cons c rest ih =>
      rw [List.all_cons, Bool.and_eq_true] at h
      obtain ⟨hfirst, hrest⟩ := h
      exact ⟨.inl hfirst, ih hrest⟩

theorem laid_append {text more : Text} (h : Laid text) (hmore : Laid more) :
    Laid (text ++ more) := by
  induction text with
  | nil => exact hmore
  | cons c rest ih =>
      obtain ⟨hfirst, hrest⟩ := h
      refine ⟨hfirst.imp_right ?_, ih hrest⟩
      rintro ⟨hc, hindented⟩
      exact ⟨hc, hindented.append more⟩

/-- A line that is begun must go on with something visible. -/
theorem laid_newline (style : Style) (depth : Nat) {text : Text} (h : Indented text)
    (hlaid : Laid text) : Laid (newline style depth ++ text) := by
  refine ⟨.inr ⟨rfl, h.spaces _⟩, laid_append ?_ hlaid⟩
  apply laid_of_printable
  rw [List.all_eq_true]
  intro c hc
  rw [List.eq_of_mem_replicate hc]
  decide

/-- Every control character is a line feed. -/
theorem eq_newline_of_laid {text : Text} (h : Laid text) {c : Char} (hc : c ∈ text) :
    isPrintable c = true ∨ c = '\n' := by
  induction text with
  | nil => cases hc
  | cons first rest ih =>
      obtain ⟨hfirst, hrest⟩ := h
      rcases List.mem_cons.mp hc with rfl | hc
      · exact hfirst.imp_right And.left
      · exact ih hrest hc

theorem return_notMem_of_laid {text : Text} (h : Laid text) : '\r' ∉ text := by
  intro hmem
  rcases eq_newline_of_laid h hmem with hprintable | hnewline
  · exact absurd hprintable (by decide)
  · exact absurd hnewline (by decide)

/-- The lines behind the first are indented, and the first is when the text is. -/
theorem splitAll_of_laid {text : Text} (h : Laid text) :
    ∃ first others, splitAll '\n' text = first :: others ∧ (∀ line ∈ others, Indented line) ∧
      (Indented text → Indented first) := by
  induction text with
  | nil => exact ⟨[], [], rfl, by simp, fun hindented => by cases hindented⟩
  | cons c rest ih =>
      obtain ⟨hfirst, hrest⟩ := h
      obtain ⟨first, others, hsplit, hothers, hbegin⟩ := ih hrest
      by_cases hc : c = '\n'
      · -- a line ends here, and the next one begins with what was promised of the rest
        subst hc
        have hindented : Indented rest := by
          rcases hfirst with hprintable | ⟨-, hindented⟩
          · exact absurd hprintable (by decide)
          · exact hindented
        refine ⟨[], first :: others, ?_, ?_, ?_⟩
        · rw [splitAll_cons_separator, hsplit]
        · intro line hline
          rcases List.mem_cons.mp hline with rfl | hline
          · exact hbegin hindented
          · exact hothers line hline
        · intro hnewline
          cases hnewline with
          | visible hspace _ => exact absurd hspace (by decide)
      · -- the character goes in front of the first line
        refine ⟨c :: first, others, ?_, hothers, ?_⟩
        · rw [splitAll, if_neg hc, hsplit]
          rfl
        · intro hindented
          cases hindented with
          | visible hspace hmark => exact .visible hspace hmark
          | space hrestIndented => exact .space (hbegin hrestIndented)

/-- **The lines of such a text** are its pieces between line feeds, and all of them are indented. -/
theorem lines_of_laid {text : Text} (hlaid : Laid text) (hindented : Indented text) :
    lines text = splitAll '\n' text ∧ ∀ line ∈ lines text, Indented line := by
  obtain ⟨first, others, hsplit, hothers, hbegin⟩ := splitAll_of_laid hlaid
  have hall : ∀ line ∈ splitAll '\n' text, Indented line := by
    intro line hline
    rw [hsplit] at hline
    rcases List.mem_cons.mp hline with rfl | hline
    · exact hbegin hindented
    · exact hothers line hline
  have hlines := lines_eq_splitAll (return_notMem_of_laid hlaid) fun line hline =>
    (hall line hline).ne_nil
  exact ⟨hlines, hlines ▸ hall⟩

/-! ## What is written is laid out -/

theorem printable_unitEscape (value : Nat) : (unitEscape value).all isPrintable = true := by
  have hdigit : ∀ n, isPrintable (hexDigit (n % 16)) = true := by
    intro n
    have hall : ∀ m : Fin 16, isPrintable (hexDigit m) = true := by decide
    exact hall ⟨n % 16, Nat.mod_lt _ (by decide)⟩
  have hmarks : ['\\', 'u'].all isPrintable = true := by decide
  rw [unitEscape, List.all_append, hmarks]
  simp only [hexFour, List.all_cons, List.all_nil, hdigit, Bool.and_self]

theorem printable_writeChar (escapeNonAscii : Bool) (c : Char) :
    (writeChar escapeNonAscii c).all isPrintable = true := by
  have hwritten := written_writeChar escapeNonAscii c
  generalize writeChar escapeNonAscii c = written at hwritten ⊢
  cases hwritten with
  | short _ hprintable => simp [isPrintable, hprintable]
  | unit _ => exact printable_unitEscape _
  | surrogates _ => rw [List.all_append, printable_unitEscape, printable_unitEscape, Bool.and_self]
  | plain _ _ hprintable _ => simp [isPrintable, hprintable]

/-- A string is printable, with its quotation marks. -/
theorem printable_writeString (escapeNonAscii : Bool) (text : Text) :
    (writeString escapeNonAscii text).all isPrintable = true := by
  have hquote : ['"'].all isPrintable = true := by decide
  have htext : (text.flatMap (writeChar escapeNonAscii)).all isPrintable = true := by
    rw [List.all_eq_true]
    intro d hd
    obtain ⟨c, -, hc⟩ := List.mem_flatMap.mp hd
    exact List.all_eq_true.mp (printable_writeChar escapeNonAscii c) d hc
  rw [writeString, List.all_append, List.all_append, hquote, htext]
  rfl

/-- So it is on one line. -/
theorem newline_notMem_writeString (escapeNonAscii : Bool) (text : Text) :
    '\n' ∉ writeString escapeNonAscii text := by
  intro hmem
  have hall := List.all_eq_true.mp (printable_writeString escapeNonAscii text)
  exact absurd (hall _ hmem) (by decide)

theorem laid_writeString (escapeNonAscii : Bool) (text : Text) :
    Laid (writeString escapeNonAscii text) :=
  laid_of_printable (printable_writeString escapeNonAscii text)

theorem indented_writeString (escapeNonAscii : Bool) (text : Text) :
    Indented (writeString escapeNonAscii text) :=
  .visible (by decide) (by decide)

/-- **A value is laid out at every depth.** -/
def IsLaidOut (style : Style) (value : Json) : Prop :=
  ∀ depth, Laid (write style depth value) ∧ Indented (write style depth value)

theorem laid_writeItems (style : Style) {items : List Json}
    (h : ∀ item ∈ items, IsLaidOut style item) (depth : Nat) :
    Laid (writeItems style depth items) := by
  induction items with
  | nil => trivial
  | cons item items ih =>
      obtain ⟨hlaid, hindented⟩ := h item (by simp) depth
      have hrest := ih fun other hmem => h other (List.mem_cons_of_mem _ hmem)
      rw [writeItems_cons]
      refine ⟨.inl (by decide), ?_⟩
      exact laid_newline style depth (hindented.append _) (laid_append hlaid hrest)

/-- The key of a member, and its value. -/
theorem laid_member {style : Style} {value : Json} (h : IsLaidOut style value) (depth : Nat)
    (key : Text) {more : Text} (hmore : Laid more) :
    Laid (newline style depth ++ (writeString style.escapeNonAscii key ++ (": ".toList
      ++ (write style depth value ++ more)))) := by
  apply laid_newline
  · exact (indented_writeString style.escapeNonAscii key).append _
  · apply laid_append (laid_writeString style.escapeNonAscii key)
    apply laid_append (laid_of_printable (by decide))
    exact laid_append (h depth).1 hmore

theorem laid_writeMembers (style : Style) {members : List (Text × Json)}
    (h : ∀ member ∈ members, IsLaidOut style member.2) (depth : Nat) :
    Laid (writeMembers style depth members) := by
  induction members with
  | nil => trivial
  | cons member members ih =>
      obtain ⟨key, value⟩ := member
      have hfirst := h (key, value) (by simp)
      have hrest := ih fun other hmem => h other (List.mem_cons_of_mem _ hmem)
      rw [writeMembers_cons]
      refine ⟨.inl (by decide), ?_⟩
      exact laid_member hfirst depth key hrest

/-- The end of a container has a line of its own. -/
theorem laid_closing (style : Style) (depth : Nat) {c : Char} (hspace : isSpace c = false)
    (hmark : c ≠ '#') (hprintable : isPrintable c = true) : Laid (newline style depth ++ [c]) :=
  laid_newline style depth (.visible hspace hmark) ⟨.inl hprintable, trivial⟩

/-- One printable line that begins visibly. -/
theorem laid_line {c : Char} {rest : Text} (h : (c :: rest).all isPrintable = true)
    (hspace : isSpace c = false) (hmark : c ≠ '#') : Laid (c :: rest) ∧ Indented (c :: rest) :=
  ⟨laid_of_printable h, .visible hspace hmark⟩

theorem visible_of_isNumberChar {c : Char} (h : isNumberChar c = true) :
    isPrintable c = true ∧ isSpace c = false ∧ c ≠ '#' := by
  have hclass : "0123456789.eE+-".toList.all (fun d => isPrintable d && d != '#') = true := by
    decide
  have hc := List.all_eq_true.mp hclass c (mem_of_isNumberChar h)
  rw [Bool.and_eq_true, bne_iff_ne] at hc
  obtain ⟨hprintable, hmark⟩ := hc
  refine ⟨hprintable, ?_, hmark⟩
  rw [Bool.eq_false_iff]
  intro hspace
  rw [isNumberChar_of_isSpace hspace] at h
  simp at h

/-- **Everything that is written is laid out.** -/
theorem isLaidOut_of_readable (style : Style) {depth : Nat} {value : Json}
    (h : Readable depth value) : IsLaidOut style value := by
  induction h with
  | null =>
      intro depth
      exact laid_line (c := 'n') (by decide) (by decide) (by decide)
  | bool value =>
      intro depth
      cases value with
      | true => exact laid_line (c := 't') (by decide) (by decide) (by decide)
      | false => exact laid_line (c := 'f') (by decide) (by decide) (by decide)
  | @number _ spelling hspelling =>
      intro depth
      obtain ⟨hne, hall⟩ := hspelling.chars
      show Laid spelling ∧ Indented spelling
      cases spelling with
      | nil => exact absurd rfl hne
      | cons c digits =>
          obtain ⟨-, hspace, hmark⟩ := visible_of_isNumberChar (hall c (by simp))
          refine laid_line (List.all_eq_true.mpr ?_) hspace hmark
          intro d hd
          exact (visible_of_isNumberChar (hall d hd)).1
  | string text =>
      intro depth
      exact ⟨laid_writeString _ _, indented_writeString _ _⟩
  | @array _ items _ ih =>
      intro depth
      cases items with
      | nil => exact laid_line (c := '[') (by decide) (by decide) (by decide)
      | cons item items =>
          obtain ⟨hlaid, hindented⟩ := ih item (by simp) (depth + 1)
          have hrest := laid_writeItems style
            (fun other hmem => ih other (List.mem_cons_of_mem _ hmem)) (depth + 1)
          have hclose := laid_closing style depth (c := ']') (by decide) (by decide) (by decide)
          rw [write_array_cons]
          refine ⟨⟨.inl (by decide), ?_⟩, .visible (by decide) (by decide)⟩
          apply laid_newline style (depth + 1) (hindented.append _)
          exact laid_append hlaid (laid_append hrest hclose)
  | @object _ members _ _ ih =>
      intro depth
      cases members with
      | nil => exact laid_line (c := '{') (by decide) (by decide) (by decide)
      | cons member members =>
          obtain ⟨key, value⟩ := member
          have hfirst := ih (key, value) (by simp)
          have hrest := laid_writeMembers style
            (fun other hmem => ih other (List.mem_cons_of_mem _ hmem)) (depth + 1)
          have hclose := laid_closing style depth (c := '}') (by decide) (by decide) (by decide)
          rw [write_object_cons]
          refine ⟨⟨.inl (by decide), ?_⟩, .visible (by decide) (by decide)⟩
          exact laid_member hfirst (depth + 1) key (laid_append hrest hclose)

/-! ## The lines of a value -/

/-- **The lines of a value that is written** are the pieces between line feeds, all of them
indented. -/
theorem lines_write (style : Style) {value : Json} (h : Readable maxDepth value) :
    lines (write style 0 value) = splitAll '\n' (write style 0 value) ∧
      ∀ line ∈ lines (write style 0 value), Indented line := by
  obtain ⟨hlaid, hindented⟩ := isLaidOut_of_readable style h 0
  exact lines_of_laid hlaid hindented

/-- Is the value an array or an object? -/
def isContainer : Json → Bool
  | .array _ => true
  | .object _ => true
  | _ => false

/-- Everything else is one line. -/
theorem splitAll_write_scalar (style : Style) (depth : Nat) {value : Json}
    (hread : Readable maxDepth value) (h : isContainer value = false) :
    splitAll '\n' (write style depth value) = [write style depth value] := by
  apply splitAll_of_notMem
  cases value with
  | null =>
      show '\n' ∉ "null".toList
      decide
  | bool value =>
      cases value with
      | true =>
          show '\n' ∉ "true".toList
          decide
      | false =>
          show '\n' ∉ "false".toList
          decide
  | number spelling =>
      cases hread with
      | number hspelling =>
          intro hmem
          exact absurd (hspelling.chars.2 _ hmem) (by decide)
  | string text => exact newline_notMem_writeString style.escapeNonAscii text
  | array items => simp [isContainer] at h
  | object members => simp [isContainer] at h

/-- A bracket that ends its line is a line. -/
theorem splitAll_bracket {c : Char} (h : c ≠ '\n') (rest : Text) :
    splitAll '\n' (c :: '\n' :: rest) = [c] :: splitAll '\n' rest := by
  rw [splitAll, if_neg h, splitAll_cons_separator]
  rfl

/-- Does the character open or close a container? -/
def isBracket (c : Char) : Bool := c = '[' || c = ']' || c = '{' || c = '}'

/-- **The first line of a container is brackets alone.** -/
theorem splitAll_write_container (style : Style) (depth : Nat) {value : Json}
    (h : isContainer value = true) :
    ∃ first others, splitAll '\n' (write style depth value) = first :: others ∧
      first.all isBracket = true := by
  cases value with
  | null | bool | number | string => simp [isContainer] at h
  | array items =>
      cases items with
      | nil => exact ⟨['[', ']'], [], rfl, by decide⟩
      | cons item items =>
          rw [write_array_cons, newline, List.cons_append]
          exact ⟨['['], _, splitAll_bracket (by decide) _, by decide⟩
  | object members =>
      cases members with
      | nil => exact ⟨['{', '}'], [], rfl, by decide⟩
      | cons member members =>
          obtain ⟨key, value⟩ := member
          rw [write_object_cons, newline, List.cons_append]
          exact ⟨['{'], _, splitAll_bracket (by decide) _, by decide⟩

end PlainRequest.Json
