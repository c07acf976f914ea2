/-
# PlainRequest.Proofs.Document.Layout — a command may be laid out over lines as one likes

A command in a document may be cut into pieces, one for each line, with white space around a piece, a
continuation mark behind it, and blank lines and comments between the lines. None of this reaches the
shell: the lines spell the pieces with one space between them, so the words are those of the pieces,
and the request that the command is read as is the same for every layout.

A continuation mark is the last backslash of a line. A piece that ends with a backslash of its own
therefore needs one.
-/

import PlainRequest.Curl.Command
import PlainRequest.Proofs.Line
import PlainRequest.Proofs.Shell.Pieces
import PlainRequest.Proofs.Text.Trimming

namespace PlainRequest.Document

open Text Line Shell

/-! ## Lines with a piece -/

/-- **`Carries line piece`** — the line has the piece between white space, and perhaps a continuation
mark behind it. -/
inductive Carries (line piece : Text) : Prop
  | plain (front back : Text) (hline : line = front ++ piece ++ back)
      (hfront : isBlank front = true) (hback : isBlank back = true)
      (hlast : piece.getLast? ≠ some '\\')
  | continued (front middle back : Text) (hline : line = front ++ piece ++ middle ++ ['\\'] ++ back)
      (hfront : isBlank front = true) (hmiddle : isBlank middle = true)
      (hback : isBlank back = true)

/-- A text that does not end with a backslash has no continuation mark. -/
theorem stripSuffix?_backslash {text : Text} (h : text.getLast? ≠ some '\\') :
    stripSuffix? ['\\'] text = none := by
  rw [Option.eq_none_iff_forall_ne_some]
  intro front hfront
  apply h
  rw [stripSuffix?_eq_some_iff.mp hfront, List.getLast?_concat]

/-- **A line without its continuation mark** is the piece that it carries. -/
theorem dropContinuation_of_carries {line piece : Text} (h : Carries line piece)
    (htrimmed : Trimmed piece) : dropContinuation line = piece := by
  cases h with
  | plain front back hline hfront hback hlast =>
      have hnone : stripSuffix? ['\\'] (front ++ piece) = none := by
        apply stripSuffix?_backslash
        rwa [htrimmed.getLast?_append]
      have htrim : trim (front ++ piece ++ []) = piece := htrimmed.trim_append hfront rfl
      rw [List.append_nil] at htrim
      simp only [hline, dropContinuation, htrimmed.trimEnd_append front hback, hnone,
        Option.getD_none, htrim]
  | continued front middle back hline hfront hmiddle hback =>
      have hend : trimEnd (front ++ piece ++ middle ++ ['\\'] ++ back) =
          front ++ piece ++ middle ++ ['\\'] := by
        rw [trimEnd_append_of_blank _ hback]
        exact trimEnd_append_of_not_space (by decide) _
      have hmark : stripSuffix? ['\\'] (front ++ piece ++ middle ++ ['\\']) =
          some (front ++ piece ++ middle) := stripSuffix?_eq_some_iff.mpr rfl
      simp only [hline, dropContinuation, hend, hmark, Option.getD_some,
        htrimmed.trim_append hfront hmiddle]

/-- What stands in front of the piece is white space. -/
theorem exists_front_of_carries {line piece : Text} (h : Carries line piece) :
    ∃ front rest, isBlank front = true ∧ line = front ++ (piece ++ rest) := by
  cases h with
  | plain front back hline hfront hback hlast =>
      refine ⟨front, back, hfront, ?_⟩
      rw [hline, List.append_assoc]
  | continued front middle back hline hfront hmiddle hback =>
      refine ⟨front, middle ++ ['\\'] ++ back, hfront, ?_⟩
      rw [hline]
      simp only [List.append_assoc]

/-- A line with a piece counts: it is neither a comment nor blank. -/
theorem counts_of_carries {line piece : Text} (h : Carries line piece) (htrimmed : Trimmed piece)
    (hmark : piece.head? ≠ some '#') : isComment line = false ∧ isBlank line = false := by
  obtain ⟨front, rest, hfront, rfl⟩ := exists_front_of_carries h
  cases piece with
  | nil => exact absurd rfl htrimmed.nonempty
  | cons c others =>
      refine ⟨?_, not_blank_of_mem (by simp) (htrimmed.front c rfl)⟩
      rw [isComment, decide_eq_false_iff_not]
      intro hhead
      cases front with
      | nil => exact hmark hhead
      | cons space spaces =>
          -- white space in the first column is no comment mark
          obtain rfl := Option.some.inj hhead
          exact absurd hfront (by simp [isBlank, show isSpace '#' = false by decide])

/-! ## Lines and pieces -/

/-- **`LaidOut lines pieces`** — the lines carry the pieces in order, with blank lines and comments
anywhere between them. -/
inductive LaidOut : List Text → List Text → Prop
  | nil : LaidOut [] []
  | skipped {line : Text} {lines pieces : List Text}
      (h : isBlank line = true ∨ isComment line = true) (hrest : LaidOut lines pieces) :
      LaidOut (line :: lines) pieces
  | carried {line piece : Text} {lines pieces : List Text} (h : Carries line piece)
      (hrest : LaidOut lines pieces) : LaidOut (line :: lines) (piece :: pieces)

/-- **`IsCore piece words`** — a piece of a command that can be put on a line of its own: it has these
words and no comment, and no white space at either end. -/
structure IsCore (piece : Text) (words : List Text) : Prop where
  trimmed : Trimmed piece
  isPiece : IsPiece piece words

instance (piece : Text) (words : List Text) : Decidable (IsCore piece words) :=
  decidable_of_iff (Trimmed piece ∧ IsPiece piece words)
    ⟨fun ⟨htrimmed, hpiece⟩ => ⟨htrimmed, hpiece⟩, fun ⟨htrimmed, hpiece⟩ => ⟨htrimmed, hpiece⟩⟩

theorem dropContinuation_significant {lines pieces : List Text} {words : List (List Text)}
    (h : LaidOut lines pieces) (hcores : List.Forall₂ IsCore pieces words) :
    (significant lines).map dropContinuation = pieces := by
  induction h generalizing words with
  | nil => rfl
  | skipped hskip hrest ih =>
      rw [← ih hcores, significant, List.filter_cons_of_neg]
      · rfl
      · rcases hskip with hblank | hcomment
        · simp [hblank]
        · simp [hcomment]
  | carried hcarries hrest ih =>
      cases hcores with
      | cons hcore hmore =>
          obtain ⟨hcomment, hblank⟩ :=
            counts_of_carries hcarries hcore.trimmed hcore.isPiece.uncommented.head?
          rw [significant, List.filter_cons_of_pos (by simp [hcomment, hblank]), List.map_cons,
            dropContinuation_of_carries hcarries hcore.trimmed]
          exact congrArg _ (ih hmore)

/-- The command that lines spell is the words of their pieces. -/
theorem words?_of_laidOut {lines pieces : List Text} {words : List (List Text)}
    (h : LaidOut lines pieces) (hcores : List.Forall₂ IsCore pieces words) :
    words? (commandText lines) = some words.flatten := by
  rw [commandText, dropContinuation_significant h hcores]
  exact words?_pieces (hcores.imp fun _ _ hcore => hcore.isPiece)

/-- Commands with the same words are read as the same lines. -/
theorem toLines_congr {command other : Text} (h : words? command = words? other) :
    Curl.toLines command = Curl.toLines other := by
  unfold Curl.toLines
  rw [h]

/-- **The layout of a command does not matter.** Lines that carry pieces of a command, each between white
space, with or without a continuation mark, and with blank lines and comments anywhere, are read by the
shell as the words of the first piece, those of the second, and so on. So all layouts of the same words
are read as the same request, or refused for the same reason. -/
theorem words?_commandText {lines pieces : List Text} {words : List (List Text)}
    (h : LaidOut lines pieces) (hcores : List.Forall₂ IsCore pieces words) :
    words? (commandText lines) = some words.flatten ∧
      ∀ (others otherPieces : List Text) (otherWords : List (List Text)),
        LaidOut others otherPieces → List.Forall₂ IsCore otherPieces otherWords →
        otherWords.flatten = words.flatten →
        Curl.toLines (commandText others) = Curl.toLines (commandText lines) := by
  have hwords := words?_of_laidOut h hcores
  refine ⟨hwords, ?_⟩
  intro others otherPieces otherWords hothers hotherCores hsame
  apply toLines_congr
  rw [words?_of_laidOut hothers hotherCores, hwords, hsame]

/-- A `#` between quotation marks and a word that ends with a backslash, on three lines and on one. -/
theorem words?_commandText_backslash :
    words? (commandText ["curl -X PUT \\".toList, "# note".toList, "\t".toList,
        "  -H 'A: #1'\\ ".toList, "u\\\\ \\".toList]) =
      some ["curl".toList, "-X".toList, "PUT".toList, "-H".toList, "A: #1".toList, "u\\".toList] ∧
    Curl.toLines (commandText [" curl -X PUT -H 'A: #1' u\\\\\\".toList]) =
      Curl.toLines (commandText ["curl -X PUT \\".toList, "# note".toList, "\t".toList,
        "  -H 'A: #1'\\ ".toList, "u\\\\ \\".toList]) := by
  have hcores : List.Forall₂ IsCore ["curl -X PUT".toList, "-H 'A: #1'".toList, "u\\\\".toList]
      [["curl".toList, "-X".toList, "PUT".toList], ["-H".toList, "A: #1".toList],
        ["u\\".toList]] := by
    decide +kernel
  have hlines : LaidOut ["curl -X PUT \\".toList, "# note".toList, "\t".toList,
      "  -H 'A: #1'\\ ".toList, "u\\\\ \\".toList]
      ["curl -X PUT".toList, "-H 'A: #1'".toList, "u\\\\".toList] :=
    .carried (.continued [] [' '] [] (by decide +kernel) rfl rfl rfl)
      (.skipped (.inr rfl) (.skipped (.inl (by decide +kernel))
      (.carried (.continued [' ', ' '] [] [' '] (by decide +kernel) rfl rfl rfl)
      (.carried (.continued [] [' '] [] (by decide +kernel) rfl rfl rfl) .nil))))
  have hcore : List.Forall₂ IsCore ["curl -X PUT -H 'A: #1' u\\\\".toList]
      [["curl".toList, "-X".toList, "PUT".toList, "-H".toList, "A: #1".toList, "u\\".toList]] := by
    decide +kernel
  have hline : LaidOut [" curl -X PUT -H 'A: #1' u\\\\\\".toList]
      ["curl -X PUT -H 'A: #1' u\\\\".toList] :=
    .carried (.continued [' '] [] [] (by decide +kernel) rfl rfl rfl) .nil
  obtain ⟨hwords, hsame⟩ := words?_commandText hlines hcores
  exact ⟨hwords, hsame _ _ _ hline hcore rfl⟩

end PlainRequest.Document
