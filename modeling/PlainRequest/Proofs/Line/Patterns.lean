/-
# PlainRequest.Proofs.Line.Patterns — request lines and header lines as patterns

A line is recognised by cuts: a request line at its first space, a header line at its first colon, with
the white space behind it dropped. Each of the two is also a pattern: a method word, a space and the rest
of the line; characters that are no delimiters, a colon, white space and the rest of the line. On a line
without line feed, the cut finds something exactly where the pattern matches, and finds what it captures.

A request line matches in one way. A header line can match in several, since white space behind the colon
may belong to the value, so there it matters which way comes first.
-/

import PlainRequest.Proofs.Line
import PlainRequest.Proofs.Text.Cutting
import PlainRequest.Proofs.Text.Pattern
import Mathlib.Data.List.DropRight

namespace PlainRequest.Line

open Text Pattern

/-! ## The patterns -/

/-- Is the character none that ends a line? -/
def inLine : Char → Bool := noneOf ['\n']

/-- The words that request lines begin with. -/
def methodWords : List Text :=
  ["GET".toList, "POST".toList, "DELETE".toList, "PUT".toList, "HEAD".toList, "OPTIONS".toList,
    "PATCH".toList]

/-- The pattern `(GET|POST|DELETE|PUT|HEAD|OPTIONS|PATCH) (.*)`. -/
def requestPattern : Pattern :=
  seq (group (words methodWords)) (seq (words [[' ']]) (group (many inLine)))

/-- Is the character one that a header name can have? -/
def nameChar : Char → Bool := noneOf "()<>@,;:/[]?=\x7b\x7d".toList

/-- The pattern `([^()<>@,;:/\[\]?={}]+):\s*(.*)`. -/
def headerPattern : Pattern :=
  seq (group (seq (one nameChar) (many nameChar)))
    (seq (words [[':']]) (seq (many isSpace) (group (many inLine))))

theorem forall_inLine_iff {text : Text} : (∀ c ∈ text, inLine c = true) ↔ '\n' ∉ text := by
  constructor
  · intro hall hmem
    exact absurd (hall '\n' hmem) (by decide)
  · intro hnot c hc
    have hne : c ≠ '\n' := by
      rintro rfl
      exact hnot hc
    simpa [inLine, noneOf] using hne

/-! ## Request lines -/

theorem methodWords_eq : methodWords = Method.all.map Method.name := rfl

/-- What matches is a request line with a target in one line. -/
theorem of_matches_requestPattern {line : Text} {groups : List Text}
    (h : requestPattern.Matches line groups) :
    ∃ method target, request? line = some (method, target) ∧ groups = [method.name, target] := by
  obtain ⟨_, _, _, _, rfl, rfl, hmethod, hrest⟩ := matches_seq_iff.mp h
  obtain ⟨_, rfl, hwords⟩ := matches_group_iff.mp hmethod
  obtain ⟨rfl, hword⟩ := matches_words_iff.mp hwords
  obtain ⟨_, target, _, _, rfl, rfl, hspaces, htarget⟩ := matches_seq_iff.mp hrest
  obtain ⟨rfl, hspace⟩ := matches_words_iff.mp hspaces
  obtain rfl := List.mem_singleton.mp hspace
  obtain ⟨_, rfl, hline⟩ := matches_group_iff.mp htarget
  obtain ⟨rfl, -⟩ := matches_many_iff.mp hline
  rw [methodWords_eq] at hword
  obtain ⟨method, -, rfl⟩ := List.mem_map.mp hword
  refine ⟨method, target, ?_, rfl⟩
  rw [request?_eq_some_iff, ofRequest, List.append_assoc]

theorem matches_requestPattern (method : Method) {target : Text} (h : '\n' ∉ target) :
    requestPattern.Matches (ofRequest method target) [method.name, target] := by
  have hword : method.name ∈ methodWords := by
    rw [methodWords_eq]
    exact List.mem_map_of_mem (Method.mem_all method)
  rw [ofRequest, List.append_assoc]
  refine .seq (.group (.word hword)) (.seq (.word (List.mem_singleton_self _)) (.group (.many ?_)))
  exact forall_inLine_iff.mpr h

/-- **A request line is what its pattern matches**, and holds what the pattern captures. -/
theorem captures?_requestPattern {line : Text} (h : '\n' ∉ line) :
    requestPattern.captures? line =
      (request? line).map fun (method, target) => [method.name, target] := by
  cases hrequest : request? line with
  | some request =>
      obtain ⟨method, target⟩ := request
      apply captures?_of_unique
      · obtain rfl := request?_eq_some_iff.mp hrequest
        exact matches_requestPattern method fun hmem => h (List.mem_append_right _ hmem)
      · intro others hothers
        obtain ⟨method', target', hother, rfl⟩ := of_matches_requestPattern hothers
        obtain ⟨rfl, rfl⟩ := Prod.mk.inj (Option.some.inj (hrequest.symm.trans hother))
        rfl
  | none =>
      refine captures?_eq_none_iff.mpr fun groups hmatches => ?_
      obtain ⟨method, target, hother, -⟩ := of_matches_requestPattern hmatches
      rw [hrequest] at hother
      cases hother

/-! ## Header lines -/

theorem isHeaderName_cons_iff {c : Char} {rest : Text} :
    isHeaderName (c :: rest) = true ↔ nameChar c = true ∧ ∀ d ∈ rest, nameChar d = true := by
  have hchar : ∀ d, nameChar d = ! delimiters.contains d := fun d => rfl
  simp [isHeaderName, hchar]

/-- What matches is a header line. -/
theorem header?_isSome_of_matches {line : Text} {groups : List Text}
    (h : headerPattern.Matches line groups) : (header? line).isSome := by
  obtain ⟨_, _, _, _, rfl, -, hgroup, hrest⟩ := matches_seq_iff.mp h
  obtain ⟨_, -, hname⟩ := matches_group_iff.mp hgroup
  obtain ⟨_, name, _, _, rfl, -, hone, hmany⟩ := matches_seq_iff.mp hname
  obtain ⟨c, rfl, -, hfirst⟩ := matches_one_iff.mp hone
  obtain ⟨-, hchars⟩ := matches_many_iff.mp hmany
  obtain ⟨_, behind, _, _, rfl, -, hcolons, -⟩ := matches_seq_iff.mp hrest
  obtain ⟨-, hcolon⟩ := matches_words_iff.mp hcolons
  obtain rfl := List.mem_singleton.mp hcolon
  have hheader : header? ((c :: name) ++ ':' :: behind) = some (c :: name, trimStart behind) :=
    header?_eq_some_iff.mpr ⟨behind, rfl, isHeaderName_cons_iff.mpr ⟨hfirst, hchars⟩, rfl⟩
  exact Option.isSome_of_mem hheader

/-- No colon stands where a name can go on. -/
theorem stripPrefix?_colon_of_nameChar {text : Text} {c : Char} (hc : c ∈ text.head?)
    (hname : nameChar c = true) : stripPrefix? [':'] text = none := by
  rw [Option.eq_none_iff_forall_ne_some]
  intro behind hcolon
  rw [stripPrefix?_eq_some_iff.mp hcolon] at hc
  obtain rfl : ':' = c := Option.some.inj hc
  exact absurd hname (by decide)

/-- A name takes all characters up to the colon. -/
theorem longest_nameChar {name : Text} (h : ∀ c ∈ name, nameChar c = true) (behind : Text) :
    longest nameChar (name ++ ':' :: behind) = ⟨name, [], ':' :: behind⟩ := by
  have hstop : ∀ c ∈ (':' :: behind).head?, nameChar c = false := by
    intro c hc
    obtain rfl : ':' = c := Option.some.inj hc
    decide
  obtain ⟨htake, hdrop⟩ := takeWhile_append_of_head hstop name
  rw [longest, htake, hdrop, List.takeWhile_eq_self_iff.mpr h, List.dropWhile_eq_nil_iff.mpr h]
  rfl

/-- White space and a value in one line: all the white space there is goes in front of the value. -/
theorem first?_value {next : Way → Option (List Text)} {text : Text} (hline : '\n' ∉ text)
    {groups : List Text} (h : next ⟨text, [trimStart text], []⟩ = some groups) :
    (seq (many isSpace) (group (many inLine))).first? text next = some groups := by
  have hvalue : ∀ c ∈ trimStart text, inLine c = true := by
    rw [forall_inLine_iff]
    exact fun hmem => hline ((List.dropWhile_suffix _).subset hmem)
  rw [first?_seq]
  apply first?_many_of_some
  rw [first?_group]
  apply first?_many_of_some
  show next ⟨text.takeWhile isSpace ++ (trimStart text).takeWhile inLine,
    [(trimStart text).takeWhile inLine], (trimStart text).dropWhile inLine⟩ = some groups
  rw [List.takeWhile_eq_self_iff.mpr hvalue, List.dropWhile_eq_nil_iff.mpr hvalue, trimStart,
    List.takeWhile_append_dropWhile]
  exact h

/-- A header line is cut by its pattern as it is read. -/
theorem captures?_of_header? {line name value : Text} (hline : '\n' ∉ line)
    (h : header? line = some (name, value)) : headerPattern.captures? line = some [name, value] := by
  obtain ⟨behind, rfl, hname, rfl⟩ := header?_eq_some_iff.mp h
  cases name with
  | nil => exact absurd rfl (ne_nil_of_isHeaderName hname)
  | cons c name =>
      obtain ⟨hfirst, hchars⟩ := isHeaderName_cons_iff.mp hname
      have hbehind : '\n' ∉ behind := by
        intro hmem
        exact hline (List.mem_append_right _ (List.mem_cons_of_mem _ hmem))
      rw [captures?, headerPattern, first?_seq, first?_group, first?_seq, List.cons_append,
        first?_one_cons, if_pos hfirst, first?_many_of_stops, longest_nameChar hchars]
      · rw [first?_seq, first?_word]
        exact first?_value hbehind rfl
      · rintro way ⟨d, hd, hchar⟩
        rw [first?_seq, first?_word]
        show (stripPrefix? [':'] way.left).bind _ = none
        rw [stripPrefix?_colon_of_nameChar hd hchar]
        rfl

/-- **A header line is what its pattern matches**, and holds what the pattern captures. -/
theorem captures?_headerPattern {line : Text} (h : '\n' ∉ line) :
    headerPattern.captures? line = (header? line).map fun (name, value) => [name, value] := by
  cases hheader : header? line with
  | some header => exact captures?_of_header? h hheader
  | none =>
      refine captures?_eq_none_iff.mpr fun groups hmatches => ?_
      have hsome := header?_isSome_of_matches hmatches
      rw [hheader] at hsome
      cases hsome

/-! ## Both readings -/

/-- A header line that is written again, with one space behind the colon, is read as it was. -/
theorem header?_ofHeader_of_header? {line name value : Text} (h : header? line = some (name, value)) :
    header? (ofHeader name value) = some (name, value) := by
  obtain ⟨behind, -, hname, rfl⟩ := header?_eq_some_iff.mp h
  have htrim : trimStart (trimStart behind) = trimStart behind := List.dropWhile_idempotent _ _
  rw [header?_ofHeader _ hname, htrim]

/-- **Lines are cut where their patterns match.** A line without line feed is a request line if and only if
it matches the pattern of request lines as a whole, and then its method and its target are what the two
groups capture. It is a header line if and only if it matches the pattern of header lines, and then its name
and its value are what the two groups capture, the white space between the colon and the value being as much
as can be. So a header line can be written again from its name and its value. -/
theorem captures?_eq_readings {line : Text} (h : '\n' ∉ line) :
    requestPattern.captures? line =
      (request? line).map (fun (method, target) => [method.name, target]) ∧
    headerPattern.captures? line = (header? line).map (fun (name, value) => [name, value]) ∧
    ∀ name value, header? line = some (name, value) →
      header? (name ++ ": ".toList ++ value) = some (name, value) := by
  refine ⟨captures?_requestPattern h, captures?_headerPattern h, ?_⟩
  intro name value hheader
  exact header?_ofHeader_of_header? hheader

/-- One line that is both, with spaces in its name, and several colons. -/
theorem captures?_eq_readings_both :
    let line := "PUT a b:\u3000 c: d ".toList
    '\n' ∉ line ∧
      requestPattern.captures? line = some ["PUT".toList, "a b:\u3000 c: d ".toList] ∧
      headerPattern.captures? line = some ["PUT a b".toList, "c: d ".toList] ∧
      header? "PUT a b: c: d ".toList = some ("PUT a b".toList, "c: d ".toList) := by
  intro line
  have hline : '\n' ∉ line := by decide +kernel
  have hrequest : request? line = some (.put, "a b:\u3000 c: d ".toList) := by decide +kernel
  have hheader : header? line = some ("PUT a b".toList, "c: d ".toList) := by decide +kernel
  obtain ⟨hrequests, hheaders, hagain⟩ := captures?_eq_readings hline
  rw [hrequest] at hrequests
  rw [hheader] at hheaders
  exact ⟨hline, hrequests, hheaders, hagain _ _ hheader⟩

end PlainRequest.Line
