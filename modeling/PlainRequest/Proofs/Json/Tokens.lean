/-
# PlainRequest.Proofs.Json.Tokens — tokens of texts that are put together

Two laws say what the tokens of `text ++ more` are. If `text` is complete by itself, its tokens come
first as soon as no number goes on into `more`. If no token at all goes on into `more`, as with a
line feed, then the two texts can be read separately even when they are not JSON. From the second law
it follows that trimming the lines of a JSON text and putting spaces between them keeps its tokens:
white space around a line is outside of every string, and whatever is not a gap there is refused.
-/

import PlainRequest.Proofs.Json.Numbers
import PlainRequest.Proofs.Json.Strings
import PlainRequest.Proofs.Text.Trimming
import Mathlib.Data.List.Induction

namespace PlainRequest.Json

open Text

/-! ## White space starts no token -/

theorem isNumberChar_of_isSpace {c : Char} (h : isSpace c = true) : isNumberChar c = false := by
  rw [Bool.eq_false_iff]
  intro hnumber
  exact notMem_of_isSpace (by decide) h (mem_of_isNumberChar hnumber)

theorem isSpace_of_isGap {c : Char} (h : isGap c = true) : isSpace c = true := by
  simp only [isGap, Bool.or_eq_true, decide_eq_true_eq] at h
  rcases h with ((rfl | rfl) | rfl) | rfl <;> decide

theorem mark?_of_isSpace {c : Char} (h : isSpace c = true) : mark? c = none := by
  have hnone : c ∉ ['[', ']', '{', '}', ',', ':'] := notMem_of_isSpace (by decide) h
  simp only [List.mem_cons, List.not_mem_nil, or_false, not_or] at hnone
  simp [mark?, hnone]

theorem word?_of_isSpace {c : Char} (h : isSpace c = true) : word? c = none := by
  have hnone : c ∉ ['n', 't', 'f'] := notMem_of_isSpace (by decide) h
  simp only [List.mem_cons, List.not_mem_nil, or_false, not_or] at hnone
  simp [word?, hnone]

theorem next?_of_isSpace {c : Char} (h : isSpace c = true) (rest : Text) :
    next? (c :: rest) = none := by
  have hquote : c ≠ '"' := by
    rintro rfl
    exact absurd h (by decide)
  have hnumber : readNumber? (c :: rest) = none := by
    have hends := endsNumbers_cons (isNumberChar_of_isSpace h) rest
    have hread := readNumber?_append hends []
    rw [List.nil_append] at hread
    rw [hread]
    rfl
  simp only [next?, mark?_of_isSpace h, word?_of_isSpace h, if_neg hquote, hnumber,
    Option.map_none]

/-! ## One token -/

/-- What follows a word is untouched by more text behind it. -/
theorem stripPrefix?_append_of_some {opening text left : Text} (more : Text)
    (h : stripPrefix? opening text = some left) :
    stripPrefix? opening (text ++ more) = some (left ++ more) := by
  rw [stripPrefix?_eq_some_iff] at h ⊢
  rw [h, List.append_assoc]

/-- **A token is read the same with more text behind it**, if no number goes on into that text. -/
theorem next?_append {text left : Text} {token : Token} {more : Text} (hends : EndsNumbers more)
    (h : next? text = some (token, left)) :
    next? (text ++ more) = some (token, left ++ more) := by
  cases text with
  | nil => simp [next?] at h
  | cons c rest =>
      rw [List.cons_append]
      unfold next? at h ⊢
      -- the first character decides between a mark, a word, a string and a number
      cases hmark : mark? c with
      | some mark =>
          simp only [hmark, Option.some.injEq, Prod.mk.injEq] at h ⊢
          exact ⟨h.1, by rw [h.2]⟩
      | none =>
          cases hword : word? c with
          | some word =>
              obtain ⟨others, meant⟩ := word
              simp only [hmark, hword, Option.map_eq_some_iff, Prod.mk.injEq] at h ⊢
              obtain ⟨after, hstrip, rfl, rfl⟩ := h
              exact ⟨_, stripPrefix?_append_of_some more hstrip, rfl, rfl⟩
          | none =>
              simp only [hmark, hword] at h ⊢
              split at h
              · next hquote =>
                  simp only [Option.map_eq_some_iff, Prod.mk.injEq, Prod.exists] at h
                  obtain ⟨read, after, hread, rfl, rfl⟩ := h
                  rw [if_pos hquote, readString?_append more hread]
                  rfl
              · next hquote =>
                  simp only [Option.map_eq_some_iff, Prod.mk.injEq, Prod.exists] at h
                  obtain ⟨spelling, after, hread, rfl, rfl⟩ := h
                  rw [if_neg hquote, ← List.cons_append, readNumber?_append hends, hread]
                  rfl

/-- The letters of the three words behind their first letters. -/
def wordLetters : Text := "ulrease".toList

/-- **No token goes on into `more`.** -/
structure EndsTokens (more : Text) : Prop where
  numbers : EndsNumbers more
  strings : EndsStrings more
  words : ∀ c ∈ more.head?, c ∉ wordLetters

/-- No token goes on behind a line feed. -/
theorem endsTokens_newline (more : Text) : EndsTokens ('\n' :: more) where
  numbers := endsNumbers_cons rfl more
  strings := endsStrings_newline more
  words := by
    intro c hc
    obtain rfl : '\n' = c := by simpa using hc
    decide

/-- Nor does one end with white space at the end of the text. -/
theorem endsTokens_space {c : Char} (h : isSpace c = true) : EndsTokens [c] where
  numbers := endsNumbers_cons (isNumberChar_of_isSpace h) []
  strings := endsStrings_singleton (by rintro rfl; exact absurd h (by decide))
  words := by
    intro d hd
    obtain rfl : c = d := by simpa using hd
    exact notMem_of_isSpace (by decide) h

/-- Of a word whose letters do not go on, nothing is found that was not there before. -/
theorem stripPrefix?_append_of_none {opening : Text} {more : Text}
    (h : ∀ c ∈ more.head?, c ∉ opening) (text : Text)
    (hnone : stripPrefix? opening text = none) : stripPrefix? opening (text ++ more) = none := by
  induction opening generalizing text with
  | nil => cases text <;> simp [stripPrefix?] at hnone
  | cons p opening ih =>
      cases text with
      | nil =>
          cases more with
          | nil => rfl
          | cons c rest =>
              have hc : p ≠ c := by
                rintro rfl
                exact h p rfl (by simp)
              simp [stripPrefix?, hc]
      | cons c rest =>
          rw [List.cons_append, stripPrefix?]
          rw [stripPrefix?] at hnone
          split
          · next hpc =>
              rw [if_pos hpc] at hnone
              exact ih (fun d hd hmem => h d hd (List.mem_cons_of_mem _ hmem)) rest hnone
          · rfl

theorem letters_of_word? {c : Char} {others : Text} {token : Token}
    (h : word? c = some (others, token)) : ∀ d ∈ others, d ∈ wordLetters := by
  have hall : others.all (wordLetters.contains ·) = true := by
    unfold word? at h
    split at h
    · obtain ⟨rfl, -⟩ := Prod.mk.inj (Option.some.inj h)
      decide
    split at h
    · obtain ⟨rfl, -⟩ := Prod.mk.inj (Option.some.inj h)
      decide
    split at h
    · obtain ⟨rfl, -⟩ := Prod.mk.inj (Option.some.inj h)
      decide
    · simp at h
  intro d hd
  exact List.contains_iff_mem.mp (List.all_eq_true.mp hall d hd)

/-- Where no token goes on, none is found that was not there before. -/
theorem next?_append_of_none {c : Char} {rest more : Text} (hends : EndsTokens more)
    (h : next? (c :: rest) = none) : next? (c :: rest ++ more) = none := by
  rw [List.cons_append]
  unfold next? at h ⊢
  cases hmark : mark? c with
  | some mark => simp [hmark] at h
  | none =>
      cases hword : word? c with
      | some word =>
          obtain ⟨others, meant⟩ := word
          simp only [hmark, hword, Option.map_eq_none_iff] at h ⊢
          have hletters := letters_of_word? hword
          exact stripPrefix?_append_of_none
            (fun d hd hmem => hends.words d hd (hletters d hmem)) rest h
      | none =>
          simp only [hmark, hword] at h ⊢
          split at h
          · next hquote =>
              rw [Option.map_eq_none_iff] at h
              rw [if_pos hquote, readString?_append_of_endsStrings hends.strings, h]
              rfl
          · next hquote =>
              rw [Option.map_eq_none_iff] at h
              rw [if_neg hquote, ← List.cons_append, readNumber?_append hends.numbers, h]
              rfl

/-! ## All tokens -/

@[simp] theorem tokens?_nil : tokens? [] = some [] := by
  rw [tokens?]

theorem tokens?_gap {c : Char} (h : isGap c = true) (rest : Text) :
    tokens? (c :: rest) = tokens? rest := by
  rw [tokens?, if_pos h]

theorem tokens?_of_next? {text left : Text} {token : Token} (h : next? text = some (token, left)) :
    tokens? text = (tokens? left).map (token :: ·) := by
  cases text with
  | nil => simp [next?] at h
  | cons c rest =>
      have hgap : ¬ isGap c = true := by
        intro hgap
        rw [next?_of_isSpace (isSpace_of_isGap hgap)] at h
        simp at h
      rw [tokens?, if_neg hgap]
      split
      · next hnone =>
          rw [hnone] at h
          simp at h
      · next token' left' hsome =>
          rw [hsome, Option.some.injEq, Prod.mk.injEq] at h
          obtain ⟨rfl, rfl⟩ := h
          rfl

theorem tokens?_of_next?_none {c : Char} {rest : Text} (hgap : isGap c = false)
    (h : next? (c :: rest) = none) : tokens? (c :: rest) = none := by
  rw [tokens?, if_neg (by simp [hgap])]
  split
  · rfl
  · next hsome =>
      rw [hsome] at h
      simp at h

/-- **The tokens of a complete text come first**, if no number goes on behind it. -/
theorem tokens?_append {text more : Text} {tokens : List Token} (hends : EndsNumbers more)
    (h : tokens? text = some tokens) :
    tokens? (text ++ more) = (tokens? more).map (tokens ++ ·) := by
  fun_induction tokens? text generalizing tokens with
  | case1 =>
      obtain rfl : [] = tokens := by simpa using h
      simp
  | case2 c rest hgap ih =>
      rw [List.cons_append, tokens?_gap hgap]
      exact ih h
  | case3 c rest hgap hnone => simp at h
  | case4 c rest hgap token left hnext _ ih =>
      obtain ⟨others, hothers, rfl⟩ := Option.map_eq_some_iff.mp h
      rw [tokens?_of_next? (next?_append hends hnext), ih hothers, Option.map_map]
      rfl

/-- **Where no token goes on, two texts are read separately.** -/
theorem tokens?_append_of_endsTokens {more : Text} (hends : EndsTokens more) (text : Text) :
    tokens? (text ++ more) =
      (tokens? text).bind fun tokens => (tokens? more).map (tokens ++ ·) := by
  cases h : tokens? text with
  | some tokens => rw [tokens?_append hends.numbers h, Option.bind_some]
  | none =>
      rw [Option.bind_none]
      -- the place at which the first text stops being JSON is still there
      fun_induction tokens? text with
      | case1 => simp at h
      | case2 c rest hgap ih =>
          rw [List.cons_append, tokens?_gap hgap]
          exact ih h
      | case3 c rest hgap hnone =>
          have hmore := next?_append_of_none hends hnone
          exact tokens?_of_next?_none (by simpa using hgap) hmore
      | case4 c rest hgap token left hnext _ ih =>
          rw [Option.map_eq_none_iff] at h
          rw [tokens?_of_next? (next?_append hends.numbers hnext), ih h]
          rfl

/-! ## Lines of a JSON text -/

/-- White space in front of a JSON text is a gap, so it can be left out. -/
theorem tokens?_trimStart {text : Text} {tokens : List Token} (h : tokens? text = some tokens) :
    tokens? (trimStart text) = some tokens := by
  induction text with
  | nil => exact h
  | cons c rest ih =>
      by_cases hspace : isSpace c = true
      · have hgap : isGap c = true := by
          by_contra hgap
          rw [tokens?_of_next?_none (by simpa using hgap) (next?_of_isSpace hspace rest)] at h
          simp at h
        rw [tokens?_gap hgap] at h
        rw [trimStart, List.dropWhile_cons_of_pos hspace]
        exact ih h
      · rw [trimStart_of_head (by simpa using hspace)]
        exact h

/-- White space behind a JSON text is a gap too. -/
theorem tokens?_trimEnd {text : Text} {tokens : List Token} (h : tokens? text = some tokens) :
    tokens? (trimEnd text) = some tokens := by
  induction text using List.reverseRecOn generalizing tokens with
  | nil => exact h
  | append_singleton text c ih =>
      -- from the end of the text, one character at a time
      by_cases hspace : isSpace c = true
      · rw [trimEnd_append_space hspace]
        rw [tokens?_append_of_endsTokens (endsTokens_space hspace)] at h
        obtain ⟨before, hbefore, hlast⟩ := Option.bind_eq_some_iff.mp h
        obtain ⟨last, hone, rfl⟩ := Option.map_eq_some_iff.mp hlast
        -- a single white space has no token of its own
        have hempty : last = [] := by
          by_cases hgap : isGap c = true
          · rw [tokens?_gap hgap, tokens?_nil, Option.some.injEq] at hone
            exact hone.symm
          · rw [tokens?_of_next?_none (by simpa using hgap) (next?_of_isSpace hspace [])] at hone
            simp at hone
        rw [hempty, List.append_nil]
        exact ih hbefore
      · rw [trimEnd_append_of_not_space (by simpa using hspace)]
        exact h

theorem tokens?_trim {text : Text} {tokens : List Token} (h : tokens? text = some tokens) :
    tokens? (trim text) = some tokens :=
  tokens?_trimStart (tokens?_trimEnd h)

/-- **Flattening a JSON text keeps its tokens**: each line trimmed, with a space in the place of each
line feed. -/
theorem tokens?_flatten {lines : List Text} {tokens : List Token}
    (h : tokens? (joinWith ['\n'] lines) = some tokens) :
    tokens? (joinWith [' '] (lines.map trim)) = some tokens := by
  induction lines generalizing tokens with
  | nil => exact h
  | cons line lines ih =>
      cases lines with
      | nil => exact tokens?_trim h
      | cons next lines =>
          -- the line feed is outside of every token, so the line has tokens of its own
          rw [joinWith_cons (by simp), List.append_assoc, List.singleton_append,
            tokens?_append_of_endsTokens (endsTokens_newline _)] at h
          obtain ⟨first, hfirst, hrest⟩ := Option.bind_eq_some_iff.mp h
          obtain ⟨others, hothers, rfl⟩ := Option.map_eq_some_iff.mp hrest
          rw [tokens?_gap rfl] at hothers
          rw [List.map_cons, joinWith_cons (by simp), List.append_assoc, List.singleton_append,
            tokens?_append (endsNumbers_cons rfl _) (tokens?_trim hfirst),
            tokens?_gap rfl, ih hothers]
          rfl

end PlainRequest.Json
