/-
# PlainRequest.Proofs.Shell.Characters — what a spelling is made of, and what it ends with

To quote a word adds quotation marks and backslashes, and no other character. A backslash is only ever
added in front of another character, and what cannot stand bare comes to stand between quotation marks.
So the spelling of a word ends with one of its bare characters or with a quotation mark, whatever the
word itself ends with: never with a backslash, and never with white space.
-/

import PlainRequest.Proofs.Shell.Spelling
import PlainRequest.Proofs.Text.Trimming

namespace PlainRequest.Shell

open Text

/-! ## What a spelling is made of -/

/-- **`IsQuoting c`** — the character is one that quoting adds. -/
def IsQuoting (c : Char) : Prop := c = '\\' ∨ c = '\'' ∨ c = '"'

theorem not_isQuoting_newline : ¬ IsQuoting '\n' := by
  unfold IsQuoting
  decide

theorem of_mem_escapeDouble {text : Text} {c : Char} (h : c ∈ escapeDouble text) :
    c ∈ text ∨ IsQuoting c := by
  obtain ⟨d, hd, hc⟩ := List.mem_flatMap.mp h
  split at hc
  · rcases List.mem_cons.mp hc with rfl | hc
    · exact .inr (.inl rfl)
    · exact .inl (List.mem_singleton.mp hc ▸ hd)
  · exact .inl (List.mem_singleton.mp hc ▸ hd)

theorem of_mem_write {ways : Ways} {chunk : Text} {c : Char} (h : c ∈ ways.write chunk) :
    c ∈ chunk ∨ IsQuoting c := by
  unfold Ways.write at h
  split at h
  · exact .inl h
  split at h
  · simp only [List.mem_append, List.mem_singleton] at h
    rcases h with (hopen | hchunk) | hclose
    · exact .inr (.inr (.inl hopen))
    · exact .inl hchunk
    · exact .inr (.inr (.inl hclose))
  · simp only [List.mem_append, List.mem_singleton] at h
    rcases h with (hopen | hchunk) | hclose
    · exact .inr (.inr (.inr hopen))
    · exact of_mem_escapeDouble hchunk
    · exact .inr (.inr (.inr hclose))

theorem of_mem_quoteChunks {text : Text} {c : Char} (h : c ∈ quoteChunks text) :
    c ∈ text ∨ IsQuoting c := by
  fun_induction quoteChunks text with
  | case1 => exact .inl h
  | case2 first rest ways chunk left hcut _ ih =>
      have hrest : chunk ++ left = rest := by
        have hrest := takeChunk_append (Ways.first first) rest
        rwa [hcut] at hrest
      rw [← hrest]
      rcases List.mem_append.mp h with hwritten | hleft
      · rcases of_mem_write hwritten with hchunk | hquoting
        · exact .inl (List.mem_append_left left hchunk)
        · exact .inr hquoting
      · rcases ih hleft with hleft | hquoting
        · exact .inl (List.mem_append_right (first :: chunk) hleft)
        · exact .inr hquoting

/-- **A spelling adds quotation marks and backslashes**, and nothing else. -/
theorem of_mem_quote? {word spelling : Text} {c : Char} (h : quote? word = some spelling)
    (hc : c ∈ spelling) : c ∈ word ∨ IsQuoting c := by
  unfold quote? at h
  split at h
  · cases h
  split at h
  · -- the empty word is spelled by two quotation marks
    obtain rfl := Option.some.inj h
    rcases List.mem_cons.mp hc with rfl | hc
    · exact .inr (.inr (.inl rfl))
    · exact .inr (.inr (.inl (List.mem_singleton.mp hc)))
  · obtain rfl := Option.some.inj h
    exact of_mem_quoteChunks hc

/-! ## What a spelling ends with -/

/-- **`IsEnd c`** — the character is bare or a quotation mark. -/
def IsEnd (c : Char) : Prop := Ways.isBare c = true ∨ c = '\'' ∨ c = '"'

theorem isAlphanum_of_isSpace {c : Char} (h : isSpace c = true) : c.isAlphanum = false := by
  simp only [isSpace, whiteSpaceRanges, List.any_cons, List.any_nil, Bool.or_false, Bool.or_eq_true,
    Bool.and_eq_true, decide_eq_true_eq] at h
  have htoNat : c.val.toNat = c.toNat := rfl
  delta Char.isAlphanum Char.isAlpha Char.isUpper Char.isLower Char.isDigit
  simp only [Bool.or_eq_false_iff, Bool.and_eq_false_iff, decide_eq_false_iff_not, ge_iff_le,
    UInt32.le_iff_toNat_le, htoNat, Char.reduceVal, UInt32.reduceToNat]
  omega

/-- White space is not bare. -/
theorem isBare_of_isSpace {c : Char} (h : isSpace c = true) : Ways.isBare c = false := by
  have hmarks : c ∉ "+-./:@]_".toList := notMem_of_isSpace (by decide) h
  rw [Ways.isBare, isAlphanum_of_isSpace h, Bool.false_or, List.contains_eq_mem,
    decide_eq_false hmarks]

namespace IsEnd

variable {c : Char}

theorem not_isSpace (h : IsEnd c) : isSpace c = false := by
  rcases h with hbare | rfl | rfl
  · rw [Bool.eq_false_iff]
    intro hspace
    rw [isBare_of_isSpace hspace] at hbare
    cases hbare
  · decide
  · decide

theorem ne_backslash (h : IsEnd c) : c ≠ '\\' := by
  rintro rfl
  rcases h with hbare | hquote | hquote
  · exact absurd hbare (by decide)
  · cases hquote
  · cases hquote

end IsEnd

/-- **`EndsWell text`** — there is a last character, and a spelling may end with it. -/
def EndsWell (text : Text) : Prop := ∃ c, text.getLast? = some c ∧ IsEnd c

theorem EndsWell.append (front : Text) {text : Text} (h : EndsWell text) :
    EndsWell (front ++ text) := by
  obtain ⟨c, hlast, hend⟩ := h
  refine ⟨c, ?_, hend⟩
  rw [List.getLast?_append, hlast, Option.some_or]

theorem endsWell_write {ways : Ways} {chunk : Text} (h : ways.Covers chunk) (hne : chunk ≠ []) :
    EndsWell (ways.write chunk) := by
  unfold Ways.write
  split
  · next hbare =>
      have hlast := List.getLast_mem hne
      exact ⟨_, List.getLast?_eq_some_getLast hne, .inl (h.bare hbare _ hlast)⟩
  split
  · exact ⟨'\'', List.getLast?_concat, .inr (.inl rfl)⟩
  · exact ⟨'"', List.getLast?_concat, .inr (.inr rfl)⟩

theorem endsWell_quoteChunks {text : Text} (h : text ≠ []) : EndsWell (quoteChunks text) := by
  fun_induction quoteChunks text with
  | case1 => exact absurd rfl h
  | case2 first rest ways chunk left hcut _ ih =>
      have hcovers := covers_takeChunk rest (Ways.covers_first first)
      rw [hcut] at hcovers
      by_cases hleft : left = []
      · rw [hleft, quoteChunks, List.append_nil]
        exact endsWell_write hcovers (List.cons_ne_nil first chunk)
      · exact (ih hleft).append _

/-- **A spelling ends well**, whatever the word ends with. -/
theorem endsWell_quote? {word spelling : Text} (h : quote? word = some spelling) :
    EndsWell spelling := by
  unfold quote? at h
  split at h
  · cases h
  split at h
  · obtain rfl := Option.some.inj h
    exact ⟨'\'', rfl, .inr (.inl rfl)⟩
  · next hne =>
      obtain rfl := Option.some.inj h
      rw [List.isEmpty_iff] at hne
      exact endsWell_quoteChunks hne

end PlainRequest.Shell
