/-
# PlainRequest.Proofs.Text.Cutting — laws of cutting and joining texts

What joining does to a list with a first piece, where cutting cuts, when the lines of a text are its
pieces between line feeds, when lines that are written are read back, and how a reader is said to leave
alone the text that stands behind what it reads.
-/

import PlainRequest.Text.Basic

namespace PlainRequest.Text

/-! ## Openings -/

theorem startsWith_iff {opening text : Text} : startsWith opening text = true ↔ opening <+: text := by
  rw [startsWith, Option.isSome_iff_exists]
  constructor
  · rintro ⟨rest, hrest⟩
    exact ⟨rest, (stripPrefix?_eq_some_iff.mp hrest).symm⟩
  · rintro ⟨rest, rfl⟩
    exact ⟨rest, stripPrefix?_append opening rest⟩

/-! ## Joining -/

/-- The first piece, and every other one behind a separator of its own. -/
theorem joinWith_cons_eq (separator piece : Text) (pieces : List Text) :
    joinWith separator (piece :: pieces) = piece ++ pieces.flatMap (separator ++ ·) := by
  induction pieces generalizing piece with
  | nil => simp [joinWith]
  | cons next pieces ih =>
      rw [joinWith_cons (by simp), ih, List.flatMap_cons, List.append_assoc, List.append_assoc]

/-- Two lists of pieces, with a separator between them. -/
theorem joinWith_append {separator : Text} {pieces others : List Text} (hpieces : pieces ≠ [])
    (hothers : others ≠ []) :
    joinWith separator (pieces ++ others) =
      joinWith separator pieces ++ separator ++ joinWith separator others := by
  obtain ⟨first, pieces, rfl⟩ := List.exists_cons_of_ne_nil hpieces
  obtain ⟨next, others, rfl⟩ := List.exists_cons_of_ne_nil hothers
  rw [List.cons_append, joinWith_cons_eq, joinWith_cons_eq, joinWith_cons_eq, List.flatMap_append,
    List.flatMap_cons]
  simp only [List.append_assoc]

/-- A character of a piece is a character of the joined text. -/
theorem mem_joinWith {separator piece : Text} {pieces : List Text} {c : Char}
    (hpiece : piece ∈ pieces) (hc : c ∈ piece) : c ∈ joinWith separator pieces := by
  induction pieces with
  | nil => simp at hpiece
  | cons first pieces ih =>
      rw [joinWith_cons_eq]
      rcases List.mem_cons.mp hpiece with rfl | hpiece
      · exact List.mem_append_left _ hc
      · apply List.mem_append_right
        rw [List.mem_flatMap]
        exact ⟨piece, hpiece, List.mem_append_right _ hc⟩

/-- Every character of the joined text is one of the separator or of a piece. -/
theorem of_mem_joinWith {separator : Text} {pieces : List Text} {c : Char}
    (h : c ∈ joinWith separator pieces) : c ∈ separator ∨ ∃ piece ∈ pieces, c ∈ piece := by
  cases pieces with
  | nil => cases h
  | cons first pieces =>
      rw [joinWith_cons_eq, List.mem_append, List.mem_flatMap] at h
      rcases h with hfirst | ⟨piece, hpiece, hc⟩
      · exact .inr ⟨first, List.mem_cons_self, hfirst⟩
      · rcases List.mem_append.mp hc with hseparator | hc
        · exact .inl hseparator
        · exact .inr ⟨piece, List.mem_cons_of_mem _ hpiece, hc⟩

/-! ## Cutting -/

/-- A text without the separator is not cut. -/
theorem splitFirst?_of_notMem {separator : Char} {text : Text} (h : separator ∉ text) :
    splitFirst? separator text = none := by
  cases hcut : splitFirst? separator text with
  | none => rfl
  | some parts =>
      obtain ⟨htext, -⟩ := splitFirst?_eq_some hcut
      rw [htext] at h
      exact absurd (by simp) h

/-- A piece that ends at a separator. -/
theorem splitAll_append_cons {separator : Char} {before : Text} (h : separator ∉ before)
    (after : Text) :
    splitAll separator (before ++ separator :: after) = before :: splitAll separator after := by
  induction before with
  | nil => rw [List.nil_append, splitAll, if_pos rfl]
  | cons c rest ih =>
      rw [List.mem_cons, not_or] at h
      rw [List.cons_append, splitAll, if_neg (Ne.symm h.1), ih h.2]
      rfl

/-- No piece has a separator. -/
theorem separator_notMem_of_mem_splitAll {separator : Char} {text piece : Text}
    (h : piece ∈ splitAll separator text) : separator ∉ piece := by
  induction text generalizing piece with
  | nil =>
      obtain rfl := List.mem_singleton.mp h
      exact List.not_mem_nil
  | cons c rest ih =>
      rw [splitAll] at h
      split at h
      · rcases List.mem_cons.mp h with rfl | hrest
        · exact List.not_mem_nil
        · exact ih hrest
      · next hne =>
          -- the character goes to the front of the first piece
          obtain ⟨first, others, hpieces⟩ :=
            List.exists_cons_of_ne_nil (splitAll_ne_nil separator rest)
          rw [hpieces] at h ih
          rcases List.mem_cons.mp h with rfl | hothers
          · rw [List.mem_cons, not_or]
            exact ⟨Ne.symm hne, ih List.mem_cons_self⟩
          · exact ih (List.mem_cons_of_mem _ hothers)

/-! ## The lines of a text -/

/-- A text without separators is one piece. -/
theorem splitAll_of_notMem {separator : Char} {text : Text} (h : separator ∉ text) :
    splitAll separator text = [text] := by
  induction text with
  | nil => rfl
  | cons c rest ih =>
      rw [List.mem_cons, not_or] at h
      rw [splitAll, if_neg (Ne.symm h.1), ih h.2]
      rfl

theorem splitAll_cons_separator (separator : Char) (rest : Text) :
    splitAll separator (separator :: rest) = [] :: splitAll separator rest :=
  splitAll_append_cons List.not_mem_nil rest

/-- **Two texts behind each other** are cut as each of them is, but the last piece of the one and the
first piece of the other are one. -/
theorem exists_splitAll_append (separator : Char) (before after : Text) :
    ∃ front last first back, splitAll separator before = front ++ [last] ∧
      splitAll separator after = first :: back ∧
      splitAll separator (before ++ after) = front ++ (last ++ first) :: back := by
  induction before with
  | nil =>
      obtain ⟨first, back, hafter⟩ := List.exists_cons_of_ne_nil (splitAll_ne_nil separator after)
      exact ⟨[], [], first, back, rfl, hafter, hafter⟩
  | cons c rest ih =>
      obtain ⟨front, last, first, back, hrest, hafter, hboth⟩ := ih
      by_cases hc : c = separator
      · refine ⟨[] :: front, last, first, back, ?_, hafter, ?_⟩
        · rw [hc, splitAll_cons_separator, hrest]
          rfl
        · rw [hc, List.cons_append, splitAll_cons_separator, hboth]
          rfl
      · rw [List.cons_append, splitAll, if_neg hc, splitAll, if_neg hc, hrest, hboth]
        cases front with
        | nil => exact ⟨[], c :: last, first, back, rfl, hafter, rfl⟩
        | cons piece front => exact ⟨(c :: piece) :: front, last, first, back, rfl, hafter, rfl⟩

/-- **Pieces that are joined are cut apart again**, if none has the separator. -/
theorem splitAll_joinWith {separator : Char} {pieces : List Text} (hne : pieces ≠ [])
    (h : ∀ piece ∈ pieces, separator ∉ piece) :
    splitAll separator (joinWith [separator] pieces) = pieces := by
  induction pieces with
  | nil => exact absurd rfl hne
  | cons piece pieces ih =>
      rw [List.forall_mem_cons] at h
      by_cases hlast : pieces = []
      · rw [hlast]
        exact splitAll_of_notMem h.1
      · rw [joinWith_cons hlast, List.append_assoc, List.singleton_append,
          splitAll_append_cons h.1, ih hlast h.2]

theorem dropReturn_of_notMem {line : Text} (h : '\r' ∉ line) : dropReturn line = line := by
  rw [dropReturn, if_neg]
  intro hlast
  exact h (List.mem_of_getLast? hlast)

/-- **Without carriage returns and with something in the last line**, the lines of a text are the
pieces between its line feeds. -/
theorem lines_eq_splitAll {text : Text} (hreturn : '\r' ∉ text)
    (hlast : ∀ line ∈ splitAll '\n' text, line ≠ []) : lines text = splitAll '\n' text := by
  have hpieces := List.dropLast_concat_getLast (splitAll_ne_nil '\n' text)
  have hnone : ∀ line ∈ splitAll '\n' text, '\r' ∉ line := by
    intro line hline hmem
    apply hreturn
    rw [← joinWith_splitAll '\n' text]
    exact mem_joinWith hline hmem
  have hkeep : (splitAll '\n' text).dropLast.map dropReturn = (splitAll '\n' text).dropLast := by
    refine (List.map_congr_left fun line hline => ?_).trans (List.map_id _)
    exact dropReturn_of_notMem (hnone line ((List.dropLast_subset _) hline))
  have hend : (splitAll '\n' text).getLast (splitAll_ne_nil '\n' text) ≠ [] :=
    hlast _ (List.getLast_mem _)
  show (splitAll '\n' text).dropLast.map dropReturn ++ _ = _
  rw [hkeep, List.getLast?_eq_some_getLast (splitAll_ne_nil '\n' text)]
  simp only [Option.toList_some, List.filter_cons, List.filter_nil]
  rw [if_pos (by simpa using hend), hpieces]

theorem unlines_singleton (line : Text) : unlines [line] = line ++ ['\n'] :=
  List.append_nil (line ++ ['\n'])

theorem splitAll_unlines {lines : List Text} (h : ∀ line ∈ lines, '\n' ∉ line) :
    splitAll '\n' (unlines lines) = lines ++ [[]] := by
  induction lines with
  | nil => rfl
  | cons line lines ih =>
      rw [List.forall_mem_cons] at h
      have hcons : unlines (line :: lines) = line ++ '\n' :: unlines lines := by
        rw [unlines, List.flatMap_cons, List.append_assoc]
        rfl
      rw [hcons, splitAll_append_cons h.1, ih h.2]
      rfl

/-- **Lines that are written are read back**, if no line holds the mark that ends it. -/
theorem lines_unlines {ls : List Text} (h : ∀ line ∈ ls, '\n' ∉ line)
    (hreturn : ∀ line ∈ ls, line.getLast? ≠ some '\r') : lines (unlines ls) = ls := by
  have hkeep : ls.map dropReturn = ls := by
    refine (List.map_congr_left fun line hline => ?_).trans (List.map_id _)
    rw [dropReturn, if_neg (hreturn line hline)]
    rfl
  show (splitAll '\n' (unlines ls)).dropLast.map dropReturn ++ _ = _
  rw [splitAll_unlines h, List.dropLast_concat, hkeep, List.getLast?_concat]
  exact List.append_nil ls

/-- No line has a line feed. -/
theorem newline_notMem_of_mem_lines {text line : Text} (h : line ∈ lines text) : '\n' ∉ line := by
  rcases List.mem_append.mp h with hfront | hlast
  · obtain ⟨piece, hpiece, rfl⟩ := List.mem_map.mp hfront
    have hnone := separator_notMem_of_mem_splitAll ((List.dropLast_subset _) hpiece)
    unfold dropReturn
    split
    · exact fun hmem => hnone ((List.dropLast_subset _) hmem)
    · exact hnone
  · have hlast := List.mem_of_getLast? (Option.mem_toList.mp (List.mem_filter.mp hlast).1)
    exact separator_notMem_of_mem_splitAll hlast

/-! ## Reading with more text behind -/

/-- What a reader gives when there is `more` text behind what it leaves. -/
def leaving {α : Type} (more : Text) : α × Text → α × Text
  | (read, left) => (read, left ++ more)

/-- A run of characters of a class ends where the text behind it does not go on with one. -/
theorem takeWhile_append_of_head {p : Char → Bool} {more : Text}
    (h : ∀ c ∈ more.head?, p c = false) (text : Text) :
    (text ++ more).takeWhile p = text.takeWhile p ∧
      (text ++ more).dropWhile p = text.dropWhile p ++ more := by
  induction text with
  | nil =>
      cases more with
      | nil => simp
      | cons c rest =>
          have hc : p c = false := h c rfl
          simp [hc]
  | cons c rest ih =>
      by_cases hc : p c = true
      · simp [hc, ih.1, ih.2]
      · simp [hc]

end PlainRequest.Text
