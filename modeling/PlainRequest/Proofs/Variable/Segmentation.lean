/-
# PlainRequest.Proofs.Variable.Segmentation — the one way in which a text is cut for replacement

Replacing tokens cuts a text into pieces. Where a token starts, the longest one that does is a piece, and
where none starts, one character is. Whether a list of pieces is the cut of a text is a matter of the
tokens alone, and not of their values. There is always one such list, and no second one, since two tokens
of one length that start at the same place are the same token. What comes out is put together from what
the pieces become, and is not looked at again.

So a table is its tokens with their values, and in what order they were set makes no difference.
-/

import PlainRequest.Proofs.Keyed
import PlainRequest.Proofs.Variable.Substitution
import Mathlib.Logic.ExistsUnique

namespace PlainRequest.Table

open Text

/-- The tokens of a table. -/
def tokens (table : Table) : List Text := table.entries.map Prod.fst

/-! ## Pieces -/

/-- A piece of a text. -/
inductive Piece
  /-- A token, which is replaced. -/
  | replaced (token : Text)
  /-- A character, which is kept. -/
  | kept (c : Char)
  deriving DecidableEq, Repr

/-- The text that the piece takes up. -/
def Piece.source : Piece → Text
  | .replaced token => token
  | .kept c => [c]

/-- What the piece becomes. -/
def outcome (table : Table) : Piece → Text
  | .replaced token => (table.get? token).getD token
  | .kept c => [c]

/-- **`IsLongest tokens text token`** — the longest of the tokens that the text begins with; the empty
token does not count. -/
structure IsLongest (tokens : List Text) (text token : Text) : Prop where
  mem : token ∈ tokens
  nonempty : token ≠ []
  starts : token <+: text
  longest : ∀ other ∈ tokens, other <+: text → other.length ≤ token.length

/-- **`NoneStarts tokens text`** — the text begins with none of the tokens, the empty one apart. -/
def NoneStarts (tokens : List Text) (text : Text) : Prop :=
  ∀ token ∈ tokens, token ≠ [] → ¬ token <+: text

/-- **`piece.Fits tokens text`** — the piece is what stands at the beginning of the text: the longest
token there, or a character if there is no token. -/
def Piece.Fits (tokens : List Text) (text : Text) : Piece → Prop
  | .replaced token => IsLongest tokens text token
  | .kept _ => NoneStarts tokens text

/-- **`IsCut tokens text pieces`** — the pieces one after another are the text, and each fits where it
stands. -/
structure IsCut (tokens : List Text) (text : Text) (pieces : List Piece) : Prop where
  covers : pieces.flatMap Piece.source = text
  fits : ∀ before piece after, pieces = before ++ piece :: after →
    piece.Fits tokens ((piece :: after).flatMap Piece.source)

/-! ## There is no second cut -/

theorem Piece.Fits.source_ne_nil {tokens : List Text} {text : Text} {piece : Piece}
    (h : piece.Fits tokens text) : piece.source ≠ [] := by
  cases piece with
  | replaced token => exact IsLongest.nonempty h
  | kept c => exact List.cons_ne_nil c []

/-- Two pieces that fit at one place are the same. -/
theorem Piece.Fits.unique {tokens : List Text} {text : Text} {piece other : Piece}
    (h : piece.Fits tokens text) (hother : other.Fits tokens text)
    (hstarts : piece.source <+: text) (hstarts' : other.source <+: text) : piece = other := by
  cases piece with
  | replaced token =>
      cases other with
      | replaced token' =>
          -- each is as long as the other, and both begin the text
          have hle : token'.length ≤ token.length := h.longest token' hother.mem hstarts'
          have hge : token.length ≤ token'.length := hother.longest token h.mem hstarts
          have hbegins : token <+: token' := List.prefix_of_prefix_length_le hstarts hstarts' hge
          rw [hbegins.eq_of_length (by omega)]
      | kept c => exact absurd hstarts (hother token h.mem h.nonempty)
  | kept c =>
      cases other with
      | replaced token' => exact absurd hstarts' (h token' hother.mem hother.nonempty)
      | kept d =>
          obtain ⟨rest, hrest⟩ := hstarts
          rw [← hrest] at hstarts'
          obtain ⟨hsame, -⟩ := List.cons_prefix_cons.mp hstarts'
          rw [hsame]

theorem isCut_nil (tokens : List Text) : IsCut tokens [] [] := by
  refine ⟨rfl, ?_⟩
  intro before piece after hpieces
  simp at hpieces

/-- **A cut, piece by piece**: the first piece fits, and the others cut what is behind it. -/
theorem isCut_cons_iff {tokens : List Text} {text : Text} {piece : Piece} {pieces : List Piece} :
    IsCut tokens text (piece :: pieces) ↔
      ∃ rest, text = piece.source ++ rest ∧ piece.Fits tokens text ∧ IsCut tokens rest pieces := by
  constructor
  · intro h
    have hfirst := h.fits [] piece pieces rfl
    rw [h.covers] at hfirst
    refine ⟨pieces.flatMap Piece.source, ?_, hfirst, rfl, ?_⟩
    · rw [← h.covers, List.flatMap_cons]
    · intro before next after hpieces
      apply h.fits (piece :: before) next after
      rw [hpieces, List.cons_append]
  · rintro ⟨rest, htext, hfirst, hrest⟩
    have hcovers : (piece :: pieces).flatMap Piece.source = text := by
      rw [List.flatMap_cons, hrest.covers, htext]
    refine ⟨hcovers, ?_⟩
    intro before next after hpieces
    cases before with
    | nil =>
        rw [List.nil_append] at hpieces
        obtain ⟨rfl, rfl⟩ := List.cons.inj hpieces
        rw [hcovers]
        exact hfirst
    | cons first before =>
        rw [List.cons_append] at hpieces
        exact hrest.fits before next after (List.cons.inj hpieces).2

/-- Nothing but the empty cut cuts the empty text. -/
theorem IsCut.eq_nil {tokens : List Text} {pieces : List Piece} (h : IsCut tokens [] pieces) :
    pieces = [] := by
  cases pieces with
  | nil => rfl
  | cons piece pieces =>
      obtain ⟨rest, htext, hfits, -⟩ := isCut_cons_iff.mp h
      exact absurd (List.append_eq_nil_iff.mp htext.symm).1 hfits.source_ne_nil

/-- **A text is cut in one way at most.** -/
theorem IsCut.unique {tokens : List Text} {text : Text} {pieces others : List Piece}
    (h : IsCut tokens text pieces) (hother : IsCut tokens text others) : pieces = others := by
  induction pieces generalizing text others with
  | nil =>
      obtain rfl : [] = text := h.covers
      rw [hother.eq_nil]
  | cons piece pieces ih =>
      obtain ⟨rest, htext, hfits, hrest⟩ := isCut_cons_iff.mp h
      cases others with
      | nil =>
          obtain rfl : [] = text := hother.covers
          exact absurd (List.append_eq_nil_iff.mp htext.symm).1 hfits.source_ne_nil
      | cons other others =>
          obtain ⟨rest', htext', hfits', hrest'⟩ := isCut_cons_iff.mp hother
          have hsame : piece = other :=
            hfits.unique hfits' ⟨rest, htext.symm⟩ ⟨rest', htext'.symm⟩
          subst hsame
          have hbehind : rest = rest' := List.append_cancel_left (htext.symm.trans htext')
          subst hbehind
          rw [ih hrest hrest']

/-- Every piece takes up something. -/
theorem IsCut.length_le {tokens : List Text} {text : Text} {pieces : List Piece}
    (h : IsCut tokens text pieces) : pieces.length ≤ text.length := by
  induction pieces generalizing text with
  | nil => exact Nat.zero_le _
  | cons piece pieces ih =>
      obtain ⟨rest, rfl, hfits, hrest⟩ := isCut_cons_iff.mp h
      have hpiece := List.length_pos_iff.mpr hfits.source_ne_nil
      have hpieces := ih hrest
      rw [List.length_cons, List.length_append]
      omega

/-! ## The cut that replacing makes -/

theorem foldl_longer_max (entry : Text × Text) (entries : List (Text × Text)) :
    ∀ other ∈ entry :: entries, other.1.length ≤ (entries.foldl longer entry).1.length := by
  induction entries generalizing entry with
  | nil =>
      intro other hmem
      rw [List.mem_singleton.mp hmem]
      exact Nat.le_refl _
  | cons next entries ih =>
      intro other hmem
      have hstep : entry.1.length ≤ (longer entry next).1.length ∧
          next.1.length ≤ (longer entry next).1.length := by
        unfold longer
        split
        · next hle => exact ⟨hle, Nat.le_refl _⟩
        · next hlt => exact ⟨Nat.le_refl _, by omega⟩
      have hkept := ih (longer entry next) _ List.mem_cons_self
      rw [List.foldl_cons]
      rcases List.mem_cons.mp hmem with rfl | hmem
      · omega
      · rcases List.mem_cons.mp hmem with rfl | hmem
        · omega
        · exact ih (longer entry next) other (List.mem_cons_of_mem _ hmem)

theorem mem_tokens_iff {table : Table} {token : Text} :
    token ∈ table.tokens ↔ ∃ value, (token, value) ∈ table.entries := by
  constructor
  · intro h
    obtain ⟨⟨key, value⟩, hmem, rfl⟩ := List.mem_map.mp h
    exact ⟨value, hmem⟩
  · rintro ⟨value, hmem⟩
    exact List.mem_map_of_mem hmem

/-- **The token that is found** is the longest. -/
theorem isLongest_of_longest? {table : Table} {text token value : Text}
    (h : table.longest? text = some (token, value)) : IsLongest table.tokens text token := by
  obtain ⟨hmem, hne, hstarts⟩ := of_longest? h
  refine ⟨mem_tokens_iff.mpr ⟨value, hmem⟩, hne, hstarts, ?_⟩
  intro other hother hbegins
  obtain ⟨otherValue, hentry⟩ := mem_tokens_iff.mp hother
  by_cases hempty : other = []
  · rw [hempty]
    exact Nat.zero_le _
  · have hcandidate : (other, otherValue) ∈ table.entries.filter (applies text) :=
      List.mem_filter.mpr ⟨hentry, applies_iff.mpr ⟨hempty, hbegins⟩⟩
    unfold longest? at h
    split at h
    · cases h
    · next first others hfilter =>
        rw [hfilter] at hcandidate
        have hmax := foldl_longer_max first others _ hcandidate
        rw [Option.some.inj h] at hmax
        exact hmax

/-- If none is found, none starts there. -/
theorem noneStarts_of_longest? {table : Table} {text : Text} (h : table.longest? text = none) :
    NoneStarts table.tokens text := by
  intro token hmem hne hstarts
  obtain ⟨value, hentry⟩ := mem_tokens_iff.mp hmem
  have hcandidate : (token, value) ∈ table.entries.filter (applies text) :=
    List.mem_filter.mpr ⟨hentry, applies_iff.mpr ⟨hne, hstarts⟩⟩
  unfold longest? at h
  split at h
  · next hfilter =>
      rw [hfilter] at hcandidate
      cases hcandidate
  · cases h

theorem outcome_replaced {table : Table} {token value : Text} (h : (token, value) ∈ table.entries) :
    table.outcome (.replaced token) = value := by
  show (Keyed.get? token table.entries).getD token = value
  rw [(Keyed.get?_eq_some_iff table.distinct).mpr h]
  rfl

/-- **Replacing makes a cut**, and puts together what its pieces become. -/
theorem exists_isCut (table : Table) (text : Text) :
    ∃ pieces, IsCut table.tokens text pieces ∧
      table.substitute text = pieces.flatMap table.outcome := by
  induction text using substitute.induct table with
  | case1 => exact ⟨[], isCut_nil _, by simp [substitute]⟩
  | case2 c rest token value hlongest hpos ih =>
      obtain ⟨pieces, hcut, hsubstitute⟩ := ih
      obtain ⟨hmem, -, hstarts⟩ := of_longest? hlongest
      refine ⟨.replaced token :: pieces, ?_, ?_⟩
      · apply isCut_cons_iff.mpr
        refine ⟨(c :: rest).drop token.length, ?_, isLongest_of_longest? hlongest, hcut⟩
        exact (List.prefix_iff_eq_append.mp hstarts).symm
      · rw [substitute_of_longest? hlongest, hsubstitute, List.flatMap_cons, outcome_replaced hmem]
  | case3 c rest hnone ih =>
      obtain ⟨pieces, hcut, hsubstitute⟩ := ih
      refine ⟨.kept c :: pieces, ?_, ?_⟩
      · apply isCut_cons_iff.mpr
        exact ⟨rest, rfl, noneStarts_of_longest? hnone, hcut⟩
      · rw [substitute_of_none hnone, hsubstitute, List.flatMap_cons]
        rfl

theorem IsCut.substitute_eq {table : Table} {text : Text} {pieces : List Piece}
    (h : IsCut table.tokens text pieces) : table.substitute text = pieces.flatMap table.outcome := by
  obtain ⟨others, hcut, hsubstitute⟩ := exists_isCut table text
  rw [hsubstitute, h.unique hcut]

/-! ## What the cut depends on -/

theorem Piece.Fits.congr {tokens others : List Text} (hsame : ∀ token, token ∈ tokens ↔ token ∈ others)
    {text : Text} {piece : Piece} (h : piece.Fits tokens text) : piece.Fits others text := by
  cases piece with
  | replaced token =>
      refine ⟨(hsame token).mp h.mem, h.nonempty, h.starts, ?_⟩
      intro other hmem hstarts
      exact h.longest other ((hsame other).mpr hmem) hstarts
  | kept c =>
      intro token hmem hne
      exact h token ((hsame token).mpr hmem) hne

/-- **The tokens decide**, and nothing else. -/
theorem IsCut.congr {tokens others : List Text} (hsame : ∀ token, token ∈ tokens ↔ token ∈ others)
    {text : Text} {pieces : List Piece} (h : IsCut tokens text pieces) : IsCut others text pieces := by
  refine ⟨h.covers, ?_⟩
  intro before piece after hpieces
  exact (h.fits before piece after hpieces).congr hsame

/-- **Replacing is leftmost, longest, and done once.** For every table, also one with an empty token, and
every text there is exactly one cut of the text, by the tokens of the table, in pieces of which each is
the longest token where it stands or, where no token starts, one character. There are not more pieces
than characters. What comes out is the values of the tokens and the kept characters, one after another,
and the values are not looked at: over all tables with these tokens, whatever the values are, the pieces
are the same. A text in which no token occurs stays as it is. -/
theorem substitute_leftmost_longest (table : Table) (text : Text) :
    (∃! pieces, IsCut table.tokens text pieces) ∧
    (∀ pieces, IsCut table.tokens text pieces →
      pieces.length ≤ text.length ∧
      table.substitute text = pieces.flatMap table.outcome ∧
      ∀ other : Table, (∀ token, token ∈ table.tokens ↔ token ∈ other.tokens) →
        other.substitute text = pieces.flatMap other.outcome) ∧
    (table.Avoids text → table.substitute text = text) := by
  refine ⟨?_, ?_, Avoids.substitute_eq_self⟩
  · obtain ⟨pieces, hcut, -⟩ := exists_isCut table text
    refine ⟨pieces, hcut, ?_⟩
    intro others hothers
    exact hothers.unique hcut
  · intro pieces hcut
    refine ⟨hcut.length_le, hcut.substitute_eq, ?_⟩
    intro other hsame
    exact (hcut.congr hsame).substitute_eq

/-- An empty token, a token that begins another one, and one that its value contains. -/
theorem substitute_leftmost_longest_overlapping :
    let table := ((empty.insert [] "x".toList).insert ":a".toList ":ab".toList).overlay
      (empty.insert ":ab".toList "y".toList)
    let pieces : List Piece := [.replaced ":ab".toList, .replaced ":a".toList, .kept ':']
    IsCut table.tokens ":ab:a:".toList pieces ∧
      table.substitute ":ab:a:".toList = "y:ab:".toList := by
  intro table pieces
  have hcut : IsCut table.tokens ":ab:a:".toList pieces := by
    refine isCut_cons_iff.mpr ⟨":a:".toList, rfl, ?_, ?_⟩
    · exact ⟨by decide, by decide, by decide, by decide⟩
    · refine isCut_cons_iff.mpr ⟨":".toList, rfl, ?_, ?_⟩
      · exact ⟨by decide, by decide, by decide, by decide⟩
      · refine isCut_cons_iff.mpr ⟨[], rfl, ?_, isCut_nil _⟩
        show ∀ token ∈ table.tokens, token ≠ [] → ¬ token <+: ":".toList
        decide
  obtain ⟨-, hpieces, -⟩ := substitute_leftmost_longest table ":ab:a:".toList
  refine ⟨hcut, ?_⟩
  rw [(hpieces pieces hcut).2.1]
  decide

/-! ## The order of the entries -/

theorem mem_tokens_iff_get? {table : Table} {token : Text} :
    token ∈ table.tokens ↔ ∃ value, table.get? token = some value := by
  rw [mem_tokens_iff]
  constructor
  · rintro ⟨value, hmem⟩
    exact ⟨value, (Keyed.get?_eq_some_iff table.distinct).mpr hmem⟩
  · rintro ⟨value, hget⟩
    exact ⟨value, (Keyed.get?_eq_some_iff table.distinct).mp hget⟩

/-- **The order of a table does not matter.** Two tables, whatever has been set and overlaid to make them,
that give the same values to the same tokens do the same to every text. -/
theorem substitute_eq_of_get?_eq {table other : Table}
    (h : ∀ token, table.get? token = other.get? token) (text : Text) :
    table.substitute text = other.substitute text := by
  have hsame : ∀ token, token ∈ table.tokens ↔ token ∈ other.tokens := by
    intro token
    rw [mem_tokens_iff_get?, mem_tokens_iff_get?, h token]
  have houtcome : table.outcome = other.outcome := by
    funext piece
    cases piece with
    | replaced token =>
        show (table.get? token).getD token = (other.get? token).getD token
        rw [h token]
    | kept c => rfl
  obtain ⟨pieces, hcut, hsubstitute⟩ := exists_isCut table text
  rw [hsubstitute, houtcome, (hcut.congr hsame).substitute_eq]

/-- Two tokens that are set one way round, and the other way round over an older value. -/
theorem substitute_eq_of_get?_eq_reordered :
    let table := (empty.insert ":a".toList ['1']).insert ":ab".toList ['2']
    let other := (empty.insert ":ab".toList ['0']).overlay
      ((empty.insert ":a".toList ['1']).insert ":ab".toList ['2'])
    table.entries ≠ other.entries ∧ (∀ token, table.get? token = other.get? token) ∧
      ∀ text, table.substitute text = other.substitute text := by
  intro table other
  have hget : ∀ token, table.get? token = other.get? token := by
    intro token
    show Keyed.get? token [(":a".toList, ['1']), (":ab".toList, ['2'])] =
      Keyed.get? token [(":ab".toList, ['2']), (":a".toList, ['1'])]
    by_cases hlong : token = ":ab".toList
    · rw [hlong]
      rfl
    · simp only [Keyed.get?, if_neg (Ne.symm hlong)]
  refine ⟨by decide, hget, ?_⟩
  intro text
  exact substitute_eq_of_get?_eq hget text

end PlainRequest.Table
