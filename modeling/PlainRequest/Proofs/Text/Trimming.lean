/-
# PlainRequest.Proofs.Text.Trimming — white space at the ends of a text

White space put around a text is what trimming takes away again, and it takes away nothing else: a text
that begins and ends with other characters comes out of any white space as it went in.
-/

import PlainRequest.Text.Blank

namespace PlainRequest.Text

/-- White space is none of some characters that are no white space. -/
theorem notMem_of_isSpace {chars : Text} (hchars : chars.all (! isSpace ·) = true) {c : Char}
    (h : isSpace c = true) : c ∉ chars := by
  intro hmem
  have hnot := List.all_eq_true.mp hchars c hmem
  rw [h] at hnot
  simp at hnot

/-- Trimming adds no character. -/
theorem of_mem_trim {text : Text} {c : Char} (h : c ∈ trim text) : c ∈ text := by
  have hend : c ∈ trimEnd text := (List.dropWhile_suffix _).subset h
  exact List.mem_reverse.mp ((List.dropWhile_suffix _).subset (List.mem_reverse.mp hend))

/-- A text without white space at either end, and not empty. -/
structure Trimmed (text : Text) : Prop where
  nonempty : text ≠ []
  front : ∀ c ∈ text.head?, isSpace c = false
  back : ∀ c ∈ text.getLast?, isSpace c = false

theorem trimmed_iff (text : Text) :
    Trimmed text ↔ text ≠ [] ∧ text.head?.all (! isSpace ·) = true ∧
      text.getLast?.all (! isSpace ·) = true := by
  have hall : ∀ side : Option Char,
      side.all (! isSpace ·) = true ↔ ∀ c ∈ side, isSpace c = false := by
    intro side
    cases side <;> simp
  rw [hall, hall]
  constructor
  · rintro ⟨hne, hfront, hback⟩
    exact ⟨hne, hfront, hback⟩
  · rintro ⟨hne, hfront, hback⟩
    exact ⟨hne, hfront, hback⟩

instance (text : Text) : Decidable (Trimmed text) := decidable_of_iff _ (trimmed_iff text).symm

theorem trimStart_append_of_blank {front : Text} (h : isBlank front = true) (text : Text) :
    trimStart (front ++ text) = trimStart text := by
  rw [isBlank, List.all_eq_true] at h
  exact List.dropWhile_append_of_pos h

theorem trimEnd_append_of_blank (text : Text) {back : Text} (h : isBlank back = true) :
    trimEnd (text ++ back) = trimEnd text := by
  rw [isBlank, List.all_eq_true] at h
  have hreverse : ∀ c ∈ back.reverse, isSpace c = true := fun c hc => h c (List.mem_reverse.mp hc)
  rw [trimEnd, List.reverse_append, List.dropWhile_append_of_pos hreverse, trimEnd]

/-- A text that does not end with white space is not shortened at the end. -/
theorem trimEnd_eq_self {text : Text} (h : ∀ c ∈ text.getLast?, isSpace c = false) :
    trimEnd text = text := by
  have hreverse : text.reverse.dropWhile isSpace = text.reverse := by
    cases hback : text.reverse with
    | nil => rfl
    | cons c rest =>
        have hlast : text.getLast? = some c := by
          rw [← List.head?_reverse, hback]
          rfl
        rw [List.dropWhile_cons_of_neg (by simpa using h c hlast)]
  rw [trimEnd, hreverse, List.reverse_reverse]

/-- A text that ends with white space, trimmed at the end. -/
theorem trimEnd_append_space {c : Char} (h : isSpace c = true) (text : Text) :
    trimEnd (text ++ [c]) = trimEnd text :=
  trimEnd_append_of_blank text (by simpa [isBlank] using h)

theorem trimEnd_append_of_not_space {c : Char} (h : isSpace c = false) (text : Text) :
    trimEnd (text ++ [c]) = text ++ [c] := by
  apply trimEnd_eq_self
  intro last hlast
  rw [List.getLast?_concat, Option.mem_def, Option.some.injEq] at hlast
  rw [← hlast, h]

namespace Trimmed

variable {text : Text}

/-- What ends with a trimmed text does not end with white space. -/
theorem getLast?_append (h : Trimmed text) (front : Text) :
    (front ++ text).getLast? = text.getLast? := by
  rw [List.getLast?_append, Option.or_of_isSome]
  exact List.getLast?_isSome.mpr h.nonempty

theorem trimEnd_append (h : Trimmed text) (front : Text) {back : Text} (hback : isBlank back = true) :
    trimEnd (front ++ text ++ back) = front ++ text := by
  rw [trimEnd_append_of_blank _ hback]
  apply trimEnd_eq_self
  rw [h.getLast?_append]
  exact h.back

/-- **White space around a trimmed text** is taken away by trimming, and only that. -/
theorem trim_append (h : Trimmed text) {front back : Text} (hfront : isBlank front = true)
    (hback : isBlank back = true) : trim (front ++ text ++ back) = text := by
  rw [trim, h.trimEnd_append front hback, trimStart_append_of_blank hfront]
  cases text with
  | nil => exact absurd rfl h.nonempty
  | cons c rest => exact trimStart_of_head (h.front c rfl)

end Trimmed

/-! ## What is left of a text -/

theorem exists_front_trimStart (text : Text) :
    ∃ front, isBlank front = true ∧ text = front ++ trimStart text :=
  ⟨text.takeWhile isSpace, List.all_takeWhile, List.takeWhile_append_dropWhile.symm⟩

theorem exists_back_trimEnd (text : Text) :
    ∃ back, isBlank back = true ∧ text = trimEnd text ++ back := by
  obtain ⟨front, hfront, hreverse⟩ := exists_front_trimStart text.reverse
  refine ⟨front.reverse, by simpa [isBlank] using hfront, ?_⟩
  have htext := congrArg List.reverse hreverse
  rwa [List.reverse_reverse, List.reverse_append] at htext

/-- A text begins with no white space once it is trimmed in front. -/
theorem head?_trimStart (text : Text) : ∀ c ∈ (trimStart text).head?, isSpace c = false := by
  intro c hc
  have hnot := List.head?_dropWhile_not isSpace text
  rw [show (text.dropWhile isSpace).head? = some c from hc] at hnot
  simpa using hnot

theorem getLast?_trimEnd (text : Text) : ∀ c ∈ (trimEnd text).getLast?, isSpace c = false := by
  intro c hc
  rw [trimEnd, List.getLast?_reverse] at hc
  exact head?_trimStart text.reverse c hc

/-- **`IsTrim text core`** — the text is the core between white space, and the core, unless it is empty,
has none at its ends. -/
def IsTrim (text core : Text) : Prop :=
  ∃ front back, text = front ++ core ++ back ∧ isBlank front = true ∧ isBlank back = true ∧
    (core = [] ∨ Trimmed core)

theorem isTrim_trim (text : Text) : IsTrim text (trim text) := by
  obtain ⟨back, hback, htext⟩ := exists_back_trimEnd text
  obtain ⟨front, hfront, hend⟩ := exists_front_trimStart (trimEnd text)
  refine ⟨front, back, ?_, hfront, hback, ?_⟩
  · rw [trim, ← hend, ← htext]
  · by_cases hempty : trim text = []
    · exact .inl hempty
    · refine .inr ⟨hempty, head?_trimStart _, ?_⟩
      -- what is cut off in front leaves the last character where it was
      intro c hc
      have hlast : (trimStart (trimEnd text)).getLast? = some c := hc
      apply getLast?_trimEnd text c
      rw [hend, List.getLast?_append, hlast]
      rfl

/-- **Trimming leaves just that core.** -/
theorem trim_eq_iff {text core : Text} : trim text = core ↔ IsTrim text core := by
  constructor
  · rintro rfl
    exact isTrim_trim text
  · rintro ⟨front, back, rfl, hfront, hback, rfl | htrimmed⟩
    · have hnothing : trimEnd front = [] := trimEnd_append_of_blank [] hfront
      rw [List.append_nil, trim, trimEnd_append_of_blank front hback, hnothing]
      rfl
    · exact htrimmed.trim_append hfront hback

end PlainRequest.Text
