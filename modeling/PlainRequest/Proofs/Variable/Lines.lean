/-
# PlainRequest.Proofs.Variable.Lines — a text in parts, and a text line by line

Reading for tokens goes from left to right and takes the longest token, so a token that begins in one
part of a text and ends in the next can change what is found before it. Where no token does, reading
comes to the beginning of the second part, whatever it has found in the first: the cut of the whole text
is the cuts of its parts, one behind the other. A declared token has no line feed, so the lines of a text
are such parts.
-/

import PlainRequest.Proofs.Variable.Resolution
import PlainRequest.Proofs.Variable.Segmentation

namespace PlainRequest.Table

open Text Declaration

/-! ## Where the cut of a text falls -/

/-- A text that is a token is one piece. -/
theorem isCut_token {tokens : List Text} {token : Text} (hmem : token ∈ tokens) (hne : token ≠ []) :
    IsCut tokens token [.replaced token] := by
  have hlongest : IsLongest tokens token token :=
    ⟨hmem, hne, List.prefix_rfl, fun other _ hbegins => hbegins.length_le⟩
  exact isCut_cons_iff.mpr ⟨[], (List.append_nil token).symm, hlongest, isCut_nil tokens⟩

/-- A piece that fits at the beginning of the first part fits there in the whole text. -/
theorem Piece.Fits.append {table : Table} {a b : Text} {piece : Piece}
    (h : piece.Fits table.tokens a) (hne : a ≠ []) (hover : ¬ table.Straddles a b) :
    piece.Fits table.tokens (a ++ b) := by
  -- a token that begins the whole text ends within the first part
  have hwithin : ∀ token ∈ table.tokens, token ≠ [] → token <+: a ++ b → token <+: a := by
    intro token hmem htoken hbegins
    obtain ⟨value, hentry⟩ := mem_tokens_iff.mp hmem
    have happlies := applies_append hne hover hentry
    rw [applies_iff.mpr ⟨htoken, hbegins⟩] at happlies
    exact (applies_iff.mp happlies.symm).2
  cases piece with
  | replaced token =>
      refine ⟨h.mem, h.nonempty, h.starts.trans (List.prefix_append a b), ?_⟩
      intro other hmem hbegins
      by_cases hempty : other = []
      · rw [hempty]
        exact Nat.zero_le _
      · exact h.longest other hmem (hwithin other hmem hempty hbegins)
  | kept c =>
      intro token hmem htoken hbegins
      exact h token hmem htoken (hwithin token hmem htoken hbegins)

/-- **The cut of a text in two parts** is the cuts of the parts, if no token lies across. -/
theorem IsCut.append {table : Table} {a b : Text} {pieces others : List Piece}
    (h : IsCut table.tokens a pieces) (hothers : IsCut table.tokens b others)
    (hover : ¬ table.Straddles a b) : IsCut table.tokens (a ++ b) (pieces ++ others) := by
  induction pieces generalizing a with
  | nil =>
      obtain rfl : [] = a := h.covers
      exact hothers
  | cons piece pieces ih =>
      obtain ⟨rest, rfl, hfits, hrest⟩ := isCut_cons_iff.mp h
      have hne : piece.source ++ rest ≠ [] := List.append_ne_nil_of_left_ne_nil hfits.source_ne_nil _
      have hbehind : ¬ table.Straddles rest b := by
        intro hlies
        exact hover (hlies.of_suffix (List.suffix_append piece.source rest))
      refine isCut_cons_iff.mpr ⟨rest ++ b, ?_, hfits.append hne hover, ih hrest hbehind⟩
      exact List.append_assoc ..

/-! ## Lines -/

/-- **Pieces between a character that no token holds** are replaced one by one. -/
theorem TokensAvoid.substitute_joinWith {table : Table} {c : Char} (h : table.TokensAvoid c)
    (lines : List Text) :
    table.substitute (joinWith [c] lines) = joinWith [c] (lines.map table.substitute) := by
  induction lines with
  | nil => simp [joinWith, substitute]
  | cons line lines ih =>
      by_cases hlast : lines = []
      · rw [hlast]
        rfl
      · have hmap : lines.map table.substitute ≠ [] := by simpa using hlast
        rw [List.map_cons, joinWith_cons hlast, joinWith_cons hmap, List.append_assoc,
          List.append_assoc, List.singleton_append, List.singleton_append,
          h.substitute_append_cons, ih]

/-- The tokens of a resolved table have no line feed, since they have no white space. -/
theorem tokensAvoid_newline_resolve (document block : List Text) :
    (resolve document block).TokensAvoid '\n' := by
  intro entry hmem hin
  obtain ⟨scope, htoken⟩ := isToken_of_mem_resolve hmem
  obtain ⟨name, -, -, hchars⟩ := htoken.marked
  exact absurd (hchars '\n' hin).1 (by decide)

/-- **Line by line or all at once.** For every table, two parts of a text are replaced independently of
each other if no token begins in the first and ends in the second: the text is cut where its parts are
cut, and between them, and what comes out is what becomes of these pieces. So with the variables that are
declared for a block it makes no difference whether they are replaced in each of some lines or in the text
of the lines. -/
theorem substitute_parts_and_lines :
    (∀ (table : Table) (a b : Text), ¬ table.Straddles a b →
      table.substitute (a ++ b) = table.substitute a ++ table.substitute b ∧
      ∀ pieces others, IsCut table.tokens a pieces → IsCut table.tokens b others →
        IsCut table.tokens (a ++ b) (pieces ++ others) ∧
        table.substitute (a ++ b) = (pieces ++ others).flatMap table.outcome) ∧
    ∀ document block lines : List Text,
      joinWith ['\n'] (lines.map (resolve document block).substitute) =
        (resolve document block).substitute (joinWith ['\n'] lines) := by
  constructor
  · intro table a b hover
    refine ⟨substitute_append hover, ?_⟩
    intro pieces others hpieces hothers
    have hcut := hpieces.append hothers hover
    exact ⟨hcut, hcut.substitute_eq⟩
  · intro document block lines
    exact ((tokensAvoid_newline_resolve document block).substitute_joinWith lines).symm

/-- A token that another one begins with stands before that other one. -/
theorem substitute_parts_and_lines_adjacent :
    let table := (empty.insert ":a".toList "1".toList).insert ":ab".toList "2".toList
    ¬ table.Straddles ":a".toList ":ab".toList ∧ IsCut table.tokens ":a".toList [.replaced ":a".toList] ∧
      IsCut table.tokens ":ab".toList [.replaced ":ab".toList] ∧
      table.substitute (":a".toList ++ ":ab".toList) =
        table.substitute ":a".toList ++ table.substitute ":ab".toList ∧
      IsCut table.tokens ":a:ab".toList [.replaced ":a".toList, .replaced ":ab".toList] ∧
      table.substitute ":a:ab".toList = "12".toList := by
  intro table
  have hover : ¬ table.Straddles ":a".toList ":ab".toList := not_straddles_cons (by decide) _ _
  have hfirst := isCut_token (show ":a".toList ∈ table.tokens by decide) (by decide)
  have hsecond := isCut_token (show ":ab".toList ∈ table.tokens by decide) (by decide)
  obtain ⟨hsubstitute, hparts⟩ := substitute_parts_and_lines.1 table _ _ hover
  obtain ⟨hcut, hresult⟩ := hparts _ _ hfirst hsecond
  refine ⟨hover, hfirst, hsecond, hsubstitute, hcut, hresult.trans ?_⟩
  decide

-- a token across the cut is found in the whole text and in neither part
example :
    let table := (empty.insert ":a".toList "1".toList).insert ":ab".toList "2".toList
    table.substitute (":a".toList ++ "b".toList) = "2".toList ∧
      table.substitute ":a".toList ++ table.substitute "b".toList = "1b".toList := by
  decide +kernel

end PlainRequest.Table
