/-
# PlainRequest.Proofs.Text.Pattern — patterns, and the way in which a text matches one

`Matches` says what a pattern matches, and what its groups capture of it. It may match a text in several
ways, so the ways have an order. A repetition takes as many characters as it can before it takes fewer, the
words are tried as they are listed, and of two patterns in turn the first decides before the second.
`ways` lists all of them in this order, for the front of a text, and `captures?` is what the groups capture
in the first way that leaves nothing of it.

A pattern that can match a text in one way only captures what it has to. For the others, `first?` asks the
ways in turn whether what comes behind can go on. In front of something that cannot begin with one of its
characters, a repetition has one way to go on only, the longest.
-/

import PlainRequest.Text.Basic
import Mathlib.Data.List.TakeWhile

namespace PlainRequest.Text

/-! ## Patterns and what they match -/

/-- A pattern. -/
inductive Pattern
  /-- One of some words. -/
  | words (choices : List Text)
  /-- A character of a class. -/
  | one (p : Char → Bool)
  /-- Any number of characters of a class. -/
  | many (p : Char → Bool)
  /-- A pattern, and another one behind it. -/
  | seq (front behind : Pattern)
  /-- A pattern whose part of the text is captured. -/
  | group (inner : Pattern)

namespace Pattern

/-- The characters that are none of these. -/
def noneOf (chars : Text) (c : Char) : Bool := ! chars.contains c

/-- **`pattern.Matches text groups`** — the pattern matches the text from its first character to its last
one, and `groups` are the parts that its groups capture, in the order in which these begin. -/
inductive Matches : Pattern → Text → List Text → Prop
  | word {choices : List Text} {word : Text} (h : word ∈ choices) : Matches (words choices) word []
  | one {p : Char → Bool} {c : Char} (h : p c = true) : Matches (one p) [c] []
  | many {p : Char → Bool} {text : Text} (h : ∀ c ∈ text, p c = true) : Matches (many p) text []
  | seq {front behind : Pattern} {text rest : Text} {groups more : List Text}
      (hfront : Matches front text groups) (hbehind : Matches behind rest more) :
      Matches (seq front behind) (text ++ rest) (groups ++ more)
  | group {inner : Pattern} {text : Text} {groups : List Text} (h : Matches inner text groups) :
      Matches (group inner) text (text :: groups)

variable {text : Text} {groups : List Text}

theorem matches_words_iff {choices : List Text} :
    (words choices).Matches text groups ↔ groups = [] ∧ text ∈ choices := by
  constructor
  · rintro ⟨h⟩
    exact ⟨rfl, h⟩
  · rintro ⟨rfl, h⟩
    exact .word h

theorem matches_one_iff {p : Char → Bool} :
    (one p).Matches text groups ↔ ∃ c, text = [c] ∧ groups = [] ∧ p c = true := by
  constructor
  · rintro ⟨⟩
    exact ⟨_, rfl, rfl, ‹_›⟩
  · rintro ⟨c, rfl, rfl, h⟩
    exact .one h

theorem matches_many_iff {p : Char → Bool} :
    (many p).Matches text groups ↔ groups = [] ∧ ∀ c ∈ text, p c = true := by
  constructor
  · rintro ⟨⟩
    exact ⟨rfl, ‹_›⟩
  · rintro ⟨rfl, h⟩
    exact .many h

theorem matches_seq_iff {front behind : Pattern} :
    (seq front behind).Matches text groups ↔ ∃ first rest captured more,
      text = first ++ rest ∧ groups = captured ++ more ∧ front.Matches first captured ∧
        behind.Matches rest more := by
  constructor
  · rintro (_ | _ | _ | ⟨hfront, hbehind⟩)
    exact ⟨_, _, _, _, rfl, rfl, hfront, hbehind⟩
  · rintro ⟨first, rest, captured, more, rfl, rfl, hfront, hbehind⟩
    exact .seq hfront hbehind

theorem matches_group_iff {inner : Pattern} :
    (group inner).Matches text groups ↔
      ∃ captured, groups = text :: captured ∧ inner.Matches text captured := by
  constructor
  · rintro (_ | _ | _ | _ | h)
    exact ⟨_, rfl, h⟩
  · rintro ⟨captured, rfl, h⟩
    exact .group h

end Pattern

/-! ## The ways to match the front of a text -/

/-- A way to match the front of a text: what it takes, what its groups capture, and what it leaves. -/
structure Way where
  taken : Text
  groups : List Text
  left : Text

/-- A way, and one to go on from there. -/
def Way.append (way next : Way) : Way :=
  ⟨way.taken ++ next.taken, way.groups ++ next.groups, next.left⟩

namespace Pattern

/-- The ways to take characters of a class: the longest run first, and no character last. -/
def runs (p : Char → Bool) : Text → List Way
  | [] => [⟨[], [], []⟩]
  | c :: rest =>
      if p c then (runs p rest).map (Way.append ⟨[c], [], rest⟩) ++ [⟨[], [], c :: rest⟩]
      else [⟨[], [], c :: rest⟩]

/-- The ways to match the front of a text, in the order in which they are tried. -/
def ways : Pattern → Text → List Way
  | words choices, text =>
      choices.filterMap fun word => (stripPrefix? word text).map fun left => ⟨word, [], left⟩
  | one _, [] => []
  | one p, c :: rest => if p c then [⟨[c], [], rest⟩] else []
  | many p, text => runs p text
  | seq front behind, text =>
      (front.ways text).flatMap fun way => (behind.ways way.left).map way.append
  | group inner, text =>
      (inner.ways text).map fun way => ⟨way.taken, way.taken :: way.groups, way.left⟩

/-- A run is a front of the text that has characters of the class only. -/
theorem mem_runs_iff {p : Char → Bool} {text taken left : Text} {groups : List Text} :
    ⟨taken, groups, left⟩ ∈ runs p text ↔
      text = taken ++ left ∧ groups = [] ∧ ∀ c ∈ taken, p c = true := by
  induction text generalizing taken groups left with
  | nil =>
      rw [runs, List.mem_singleton, Way.mk.injEq, List.nil_eq, List.append_eq_nil_iff]
      constructor
      · rintro ⟨rfl, rfl, rfl⟩
        exact ⟨⟨rfl, rfl⟩, rfl, by simp⟩
      · rintro ⟨⟨rfl, rfl⟩, rfl, -⟩
        exact ⟨rfl, rfl, rfl⟩
  | cons c rest ih =>
      rw [runs]
      constructor
      · intro h
        split at h
        · next hc =>
            rcases List.mem_append.mp h with hlonger | hnone
            · obtain ⟨⟨taken, groups, left⟩, hway, heq⟩ := List.mem_map.mp hlonger
              obtain ⟨rfl, rfl, hchars⟩ := ih.mp hway
              cases heq
              exact ⟨rfl, rfl, List.forall_mem_cons.mpr ⟨hc, hchars⟩⟩
            · cases List.mem_singleton.mp hnone
              exact ⟨rfl, rfl, by simp⟩
        · cases List.mem_singleton.mp h
          exact ⟨rfl, rfl, by simp⟩
      · rintro ⟨htext, rfl, hchars⟩
        cases taken with
        | nil =>
            rw [List.nil_append] at htext
            rw [htext]
            split <;> simp
        | cons d taken =>
            obtain ⟨rfl, rfl⟩ := List.cons.inj htext
            rw [List.forall_mem_cons] at hchars
            rw [if_pos hchars.1, List.mem_append, List.mem_map]
            exact .inl ⟨⟨taken, [], left⟩, ih.mpr ⟨rfl, rfl, hchars.2⟩, rfl⟩

/-- **The ways are all there are**: one for each front of the text, and each way in which the pattern
matches that front. -/
theorem mem_ways_iff {pattern : Pattern} {text taken left : Text} {groups : List Text} :
    ⟨taken, groups, left⟩ ∈ pattern.ways text ↔
      text = taken ++ left ∧ pattern.Matches taken groups := by
  induction pattern generalizing text taken groups left with
  | words choices =>
      simp only [ways, List.mem_filterMap, Option.map_eq_some_iff, stripPrefix?_eq_some_iff]
      constructor
      · rintro ⟨word, hword, rest, rfl, heq⟩
        cases heq
        exact ⟨rfl, .word hword⟩
      · rintro ⟨rfl, hmatches⟩
        cases hmatches with
        | word hword => exact ⟨taken, hword, left, rfl, rfl⟩
  | one p =>
      constructor
      · intro h
        cases text with
        | nil => cases h
        | cons c rest =>
            rw [ways] at h
            split at h
            · next hc =>
                cases List.mem_singleton.mp h
                exact ⟨rfl, .one hc⟩
            · cases h
      · rintro ⟨rfl, hmatches⟩
        cases hmatches with
        | one hc => simp [ways, hc]
  | many p =>
      rw [ways, mem_runs_iff]
      constructor
      · rintro ⟨htext, rfl, hchars⟩
        exact ⟨htext, .many hchars⟩
      · rintro ⟨htext, hmatches⟩
        cases hmatches with
        | many hchars => exact ⟨htext, rfl, hchars⟩
  | seq front behind ihfront ihbehind =>
      rw [ways, List.mem_flatMap]
      constructor
      · rintro ⟨⟨first, captured, rest⟩, hfront, hbehind⟩
        obtain ⟨⟨second, more, left⟩, hsecond, heq⟩ := List.mem_map.mp hbehind
        obtain ⟨rfl, hmatches⟩ := ihfront.mp hfront
        obtain ⟨hrest, hmore⟩ := ihbehind.mp hsecond
        cases heq
        rw [show rest = second ++ left from hrest, ← List.append_assoc]
        exact ⟨rfl, .seq hmatches hmore⟩
      · rintro ⟨rfl, hmatches⟩
        cases hmatches with
        | @seq _ _ first second captured more hfront hbehind =>
            refine ⟨⟨first, captured, second ++ left⟩, ?_, ?_⟩
            · exact ihfront.mpr ⟨List.append_assoc .., hfront⟩
            · rw [List.mem_map]
              exact ⟨⟨second, more, left⟩, ihbehind.mpr ⟨rfl, hbehind⟩, rfl⟩
  | group inner ih =>
      rw [ways, List.mem_map]
      constructor
      · rintro ⟨⟨taken, captured, left⟩, hinner, heq⟩
        obtain ⟨rfl, hmatches⟩ := ih.mp hinner
        cases heq
        exact ⟨rfl, .group hmatches⟩
      · rintro ⟨rfl, hmatches⟩
        cases hmatches with
        | @group _ _ captured hinner => exact ⟨⟨taken, captured, left⟩, ih.mpr ⟨rfl, hinner⟩, rfl⟩

/-! ## What is captured -/

variable {β : Type}

/-- What `next` makes of the first way with which it can go on. -/
def first? (pattern : Pattern) (text : Text) (next : Way → Option β) : Option β :=
  (pattern.ways text).findSome? next

/-- What the groups of a way capture, if it leaves nothing. -/
def whole? (way : Way) : Option (List Text) := if way.left = [] then some way.groups else none

/-- What the groups of the pattern capture in the first way in which it matches the whole text. -/
def captures? (pattern : Pattern) (text : Text) : Option (List Text) := pattern.first? text whole?

section

variable {pattern : Pattern} {text : Text} {groups : List Text}

/-- What is captured is a match. -/
theorem matches_of_captures? (h : pattern.captures? text = some groups) :
    pattern.Matches text groups := by
  obtain ⟨⟨taken, captured, left⟩, hway, hwhole⟩ := List.exists_of_findSome?_eq_some h
  obtain ⟨rfl, hmatches⟩ := mem_ways_iff.mp hway
  rw [whole?] at hwhole
  split at hwhole
  · next hleft =>
      obtain rfl : left = [] := hleft
      obtain rfl : captured = groups := Option.some.inj hwhole
      rwa [List.append_nil]
  · cases hwhole

/-- **Nothing is captured** exactly where the pattern does not match. -/
theorem captures?_eq_none_iff :
    pattern.captures? text = none ↔ ∀ groups, ¬ pattern.Matches text groups := by
  constructor
  · intro hnone groups hmatches
    have hway : ⟨text, groups, []⟩ ∈ pattern.ways text :=
      mem_ways_iff.mpr ⟨(List.append_nil text).symm, hmatches⟩
    have hwhole : whole? ⟨text, groups, []⟩ = none := List.findSome?_eq_none_iff.mp hnone _ hway
    rw [whole?, if_pos rfl] at hwhole
    cases hwhole
  · intro hnone
    cases hcaptures : pattern.captures? text with
    | none => rfl
    | some groups => exact absurd (matches_of_captures? hcaptures) (hnone groups)

/-- A match that is the only one is what is captured. -/
theorem captures?_of_unique (h : pattern.Matches text groups)
    (hunique : ∀ others, pattern.Matches text others → others = groups) :
    pattern.captures? text = some groups := by
  cases hcaptures : pattern.captures? text with
  | none => exact absurd h (captures?_eq_none_iff.mp hcaptures groups)
  | some others => rw [hunique others (matches_of_captures? hcaptures)]

end

/-! ## The first way, pattern by pattern -/

variable {next : Way → Option β}

/-- A single word is there or is not. -/
theorem first?_word (word text : Text) :
    (words [word]).first? text next =
      (stripPrefix? word text).bind fun left => next ⟨word, [], left⟩ := by
  rw [first?, ways, List.filterMap_cons]
  cases stripPrefix? word text with
  | none => rfl
  | some left => exact List.findSome?_singleton

theorem first?_one_cons (p : Char → Bool) (c : Char) (rest : Text) :
    (one p).first? (c :: rest) next = if p c then next ⟨[c], [], rest⟩ else none := by
  rw [first?, ways]
  split
  · exact List.findSome?_singleton
  · rfl

theorem first?_seq (front behind : Pattern) (text : Text) :
    (seq front behind).first? text next =
      front.first? text fun way => behind.first? way.left fun after => next (way.append after) := by
  rw [first?, ways, first?]
  induction front.ways text with
  | nil => rfl
  | cons way others ih =>
      rw [List.flatMap_cons, List.findSome?_append, List.findSome?_cons, List.findSome?_map, ih]
      show Option.or (behind.first? way.left fun after => next (way.append after)) _ = _
      cases behind.first? way.left fun after => next (way.append after) <;> rfl

theorem first?_group (inner : Pattern) (text : Text) :
    (group inner).first? text next =
      inner.first? text fun way => next ⟨way.taken, way.taken :: way.groups, way.left⟩ := by
  rw [first?, ways, List.findSome?_map]
  rfl

/-- The way that takes the longest run. -/
def longest (p : Char → Bool) (text : Text) : Way := ⟨text.takeWhile p, [], text.dropWhile p⟩

theorem longest_cons {p : Char → Bool} {c : Char} (hc : p c = true) (rest : Text) :
    longest p (c :: rest) = Way.append ⟨[c], [], rest⟩ (longest p rest) := by
  rw [longest, List.takeWhile_cons_of_pos hc, List.dropWhile_cons_of_pos hc]
  rfl

/-- The longest run comes first, and every other one leaves a character that it could have taken. -/
theorem exists_runs_eq (p : Char → Bool) (text : Text) :
    ∃ others, runs p text = longest p text :: others ∧
      ∀ way ∈ others, ∃ c ∈ way.left.head?, p c = true := by
  induction text with
  | nil => exact ⟨[], rfl, by simp⟩
  | cons c rest ih =>
      obtain ⟨others, hruns, hothers⟩ := ih
      rw [runs]
      by_cases hc : p c = true
      · rw [if_pos hc, hruns, longest_cons hc]
        refine ⟨others.map (Way.append ⟨[c], [], rest⟩) ++ [⟨[], [], c :: rest⟩], rfl, ?_⟩
        intro way hmem
        rcases List.mem_append.mp hmem with hlonger | hnone
        · obtain ⟨other, hother, rfl⟩ := List.mem_map.mp hlonger
          exact hothers other hother
        · obtain rfl := List.mem_singleton.mp hnone
          exact ⟨c, rfl, hc⟩
      · refine ⟨[], ?_, by simp⟩
        rw [if_neg hc, longest, List.takeWhile_cons_of_neg hc, List.dropWhile_cons_of_neg hc]

/-- If one can go on from the longest run, that is the way. -/
theorem first?_many_of_some {p : Char → Bool} {text : Text} {result : β}
    (h : next (longest p text) = some result) : (many p).first? text next = some result := by
  obtain ⟨others, hruns, -⟩ := exists_runs_eq p text
  rw [first?, ways, hruns, List.findSome?_cons, h]

/-- **If one cannot go on in front of a character of the class**, the longest run is the only way. -/
theorem first?_many_of_stops {p : Char → Bool} (text : Text)
    (h : ∀ way, (∃ c ∈ way.left.head?, p c = true) → next way = none) :
    (many p).first? text next = next (longest p text) := by
  obtain ⟨others, hruns, hothers⟩ := exists_runs_eq p text
  have hnone : others.findSome? next = none := by
    rw [List.findSome?_eq_none_iff]
    intro way hmem
    exact h way (hothers way hmem)
  rw [first?, ways, hruns, List.findSome?_cons, hnone]
  cases next (longest p text) <;> rfl

end Pattern

end PlainRequest.Text
