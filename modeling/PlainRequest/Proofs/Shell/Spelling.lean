/-
# PlainRequest.Proofs.Shell.Spelling — quoted text is read back as the word it was made from

`Spells spelling word` says that reading `spelling` from between two words puts the automaton at the
end of exactly that word. Three ways of quoting are shown to spell what they were given: double
quotes around escaped text, for every text; the chunks of `quote?`, for every text without a NUL; and
a word written bare. `words?_joinWith` then reads spellings with a space between them as their
words, so a command is understood by looking at one word at a time.
-/

import PlainRequest.Shell.Quote
import PlainRequest.Shell.Words
import Mathlib.Data.List.Forall2

namespace PlainRequest.Shell

open Text State

/-! ## Inside quotes -/

/-- A single-quoted text without a single quote is read as it stands. -/
theorem run_single {text : Text} (h : '\'' ∉ text) (finished : List Text) (word : Text) :
    run ⟨finished, .single word⟩ text = ⟨finished, .single (text.reverse ++ word)⟩ := by
  induction text generalizing word with
  | nil => rfl
  | cons c rest ih =>
      simp only [List.mem_cons, not_or] at h
      have hstep : step ⟨finished, .single word⟩ c = ⟨finished, .single (c :: word)⟩ := by
        simp [step, Ne.symm h.1]
      rw [run_cons, hstep, ih h.2]
      simp

/-- The characters that a backslash keeps between double quotes are those that get one. -/
theorem isQuotable_eq_needsEscape (c : Char) : isQuotable c = needsEscape c := by
  simp only [isQuotable, needsEscape]
  grind

theorem escapeDouble_cons (c : Char) (text : Text) :
    escapeDouble (c :: text) =
      (if needsEscape c then ['\\', c] else [c]) ++ escapeDouble text := by
  simp only [escapeDouble, List.flatMap_cons]

/-- One character, escaped, is read as itself. -/
theorem run_escapedChar (finished : List Text) (word : Text) (c : Char) :
    run ⟨finished, .double word⟩ (if needsEscape c then ['\\', c] else [c]) =
      ⟨finished, .double (c :: word)⟩ := by
  by_cases h : needsEscape c = true
  · have hquotable : isQuotable c = true := by rw [isQuotable_eq_needsEscape, h]
    simp [h, step, hquotable]
  · -- a character without a backslash is neither of the two that mean something here
    have hne : c ≠ '\\' ∧ c ≠ '"' := by
      constructor <;> rintro rfl <;> exact h (by decide)
    simp [h, step, hne.1, hne.2]

/-- **Double quotes undo escaping** for every text, whatever comes after it. -/
theorem run_escapeDouble (finished : List Text) (word text : Text) :
    run ⟨finished, .double word⟩ (escapeDouble text) =
      ⟨finished, .double (text.reverse ++ word)⟩ := by
  -- the automaton keeps its word backwards, so every character read goes to the front of it
  induction text generalizing word with
  | nil => rfl
  | cons c rest ih =>
      rw [escapeDouble_cons, run_append, run_escapedChar, ih]
      simp

/-! ## Chunks -/

/-- A bare character does not separate words. -/
theorem isSeparator_of_isBare {c : Char} (h : Ways.isBare c = true) : isSeparator c = false := by
  rw [Bool.eq_false_iff]
  intro hsep
  simp only [isSeparator, Bool.or_eq_true, decide_eq_true_eq] at hsep
  rcases hsep with (rfl | rfl) | rfl <;> revert h <;> decide

/-- Outside quotes a bare character stands for itself. -/
theorem bareMode_of_isBare {c : Char} (h : Ways.isBare c = true) (word : Text) :
    bareMode word c = .bare (c :: word) := by
  have hne : c ≠ '"' ∧ c ≠ '\'' ∧ c ≠ '\\' := by
    refine ⟨?_, ?_, ?_⟩ <;> rintro rfl <;> revert h <;> decide
  simp [bareMode, hne.1, hne.2.1, hne.2.2]

theorem run_bare {text : Text} (h : ∀ c ∈ text, Ways.isBare c = true) (finished : List Text)
    (word : Text) :
    run ⟨finished, .bare word⟩ text = ⟨finished, .bare (text.reverse ++ word)⟩ := by
  induction text generalizing word with
  | nil => rfl
  | cons c rest ih =>
      have hc := h c (by simp)
      have hstep : step ⟨finished, .bare word⟩ c = ⟨finished, .bare (c :: word)⟩ := by
        simp [step, isSeparator_of_isBare hc, bareMode_of_isBare hc]
      rw [run_cons, hstep, ih (fun d hd => h d (List.mem_cons_of_mem _ hd))]
      simp

namespace Ways

/-- **`Covers ways chunk`** — what a way that is still open promises about every character: bare
ones may be written bare, and no single quote stands between single quotes. Double quotes promise
nothing, since what stands between them is escaped. -/
structure Covers (ways : Ways) (chunk : Text) : Prop where
  bare : ways.bare = true → ∀ c ∈ chunk, isBare c = true
  single : ways.single = true → '\'' ∉ chunk

theorem covers_first (c : Char) : (first c).Covers [c] := by
  unfold first
  split
  · next h => exact ⟨by simp, by simp [h]⟩
  · refine ⟨by simp [inside], fun hsingle => ?_⟩
    simp only [List.mem_singleton]
    rintro rfl
    exact absurd hsingle (by decide)

theorem covers_meet_inside {ways : Ways} {chunk : Text} {c : Char} (h : ways.Covers chunk) :
    (ways.meet (inside c)).Covers (chunk ++ [c]) := by
  constructor
  · intro hbare
    simp only [meet, inside, Bool.and_eq_true] at hbare
    simp only [List.mem_append, List.mem_singleton]
    rintro d (hd | rfl)
    · exact h.bare hbare.1 d hd
    · exact hbare.2
  · intro hsingle
    simp only [meet, inside, Bool.and_eq_true] at hsingle
    simp only [List.mem_append, List.mem_singleton, not_or]
    refine ⟨h.single hsingle.1, ?_⟩
    rintro rfl
    exact absurd hsingle.2 (by decide)

end Ways

/-- The ways that remain cover the whole chunk: what was there before and what was taken. -/
theorem covers_takeChunk {ways : Ways} {chunk : Text} (text : Text) (h : ways.Covers chunk) :
    (takeChunk ways text).1.Covers (chunk ++ (takeChunk ways text).2.1) := by
  induction text generalizing ways chunk with
  | nil => simpa [takeChunk] using h
  | cons c rest ih =>
      -- taking a character narrows the ways to those that cover it as well
      simp only [takeChunk]
      split
      · have hrest := ih (Ways.covers_meet_inside (c := c) h)
        rwa [List.append_assoc, List.singleton_append] at hrest
      · simpa using h

/-- A chunk written in a way that covers it is read as itself. -/
theorem run_write {ways : Ways} {chunk : Text} (h : ways.Covers chunk) (finished : List Text)
    (word : Text) :
    run ⟨finished, .bare word⟩ (ways.write chunk) =
      ⟨finished, .bare (chunk.reverse ++ word)⟩ := by
  unfold Ways.write
  split
  · next hbare => exact run_bare (h.bare hbare) finished word
  split
  · next hsingle =>
      have hopen : step ⟨finished, .bare word⟩ '\'' = ⟨finished, .single word⟩ := rfl
      rw [List.append_assoc, List.singleton_append, run_cons, hopen, run_append,
        run_single (h.single hsingle)]
      rfl
  · have hopen : step ⟨finished, .bare word⟩ '"' = ⟨finished, .double word⟩ := rfl
    rw [List.append_assoc, List.singleton_append, run_cons, hopen, run_append, run_escapeDouble]
    rfl

/-- **Chunk by chunk** the spelling of a text is read as the text. -/
theorem run_quoteChunks (text : Text) (finished : List Text) (word : Text) :
    run ⟨finished, .bare word⟩ (quoteChunks text) =
      ⟨finished, .bare (text.reverse ++ word)⟩ := by
  fun_induction quoteChunks text generalizing word with
  | case1 => rfl
  | case2 c rest ways chunk left h _ ih =>
      -- the first chunk is written in a way that covers it; the induction is on what it leaves
      have hcover : ways.Covers (c :: chunk) := by
        have hcover := covers_takeChunk rest (Ways.covers_first c)
        rwa [h] at hcover
      have hrest : chunk ++ left = rest := by
        have hrest := takeChunk_append (Ways.first c) rest
        rwa [h] at hrest
      rw [run_append, run_write hcover, ih, ← hrest]
      simp

/-! ## Words and commands -/

/-- **`Spells spelling word`** — read from between two words, `spelling` ends at the end of `word`
and finishes nothing else. -/
def Spells (spelling word : Text) : Prop :=
  ∀ finished, run ⟨finished, .gap⟩ spelling = ⟨finished, .bare word.reverse⟩

/-- Where a word starts, a character that opens neither a gap nor a comment is read as in a word. -/
theorem step_gap {c : Char} (hsep : isSeparator c = false) (hhash : c ≠ '#')
    (finished : List Text) : step ⟨finished, .gap⟩ c = step ⟨finished, .bare []⟩ c := by
  simp [step, hsep, hhash]

/-- Text that reads as a word, and does not start with a separator or `#`, spells that word. -/
theorem spells_of_run {c : Char} {rest word : Text} (hsep : isSeparator c = false)
    (hhash : c ≠ '#')
    (h : ∀ finished, run ⟨finished, .bare []⟩ (c :: rest) = ⟨finished, .bare word.reverse⟩) :
    Spells (c :: rest) word := by
  intro finished
  rw [run_cons, step_gap hsep hhash, ← run_cons, h]

/-- A word of bare characters spells itself. -/
theorem spells_bare {word : Text} (hne : word ≠ []) (h : word.all Ways.isBare = true) :
    Spells word word := by
  rw [List.all_eq_true] at h
  cases word with
  | nil => exact absurd rfl hne
  | cons c rest =>
      have hc := h c (by simp)
      refine spells_of_run (isSeparator_of_isBare hc) ?_ fun finished => ?_
      · rintro rfl
        exact absurd hc (by decide)
      · rw [run_bare h, List.append_nil]

/-- A text in double quotes, escaped, spells that text. -/
theorem spells_double (text : Text) : Spells (['"'] ++ escapeDouble text ++ ['"']) text := by
  rw [List.append_assoc, List.singleton_append]
  apply spells_of_run (by decide) (by decide)
  intro finished
  have hopen : step ⟨finished, .bare []⟩ '"' = ⟨finished, .double []⟩ := rfl
  rw [run_cons, hopen, run_append, run_escapeDouble, List.append_nil]
  rfl

/-- A written chunk starts with a quotation mark or with the bare first character itself. -/
theorem write_head {ways : Ways} {c : Char} {chunk : Text} (h : ways.Covers (c :: chunk)) :
    ∃ d rest, ways.write (c :: chunk) = d :: rest ∧ isSeparator d = false ∧ d ≠ '#' := by
  unfold Ways.write
  split
  · next hbare =>
      have hc := h.bare hbare c (by simp)
      refine ⟨c, chunk, rfl, isSeparator_of_isBare hc, ?_⟩
      rintro rfl
      exact absurd hc (by decide)
  split
  · exact ⟨'\'', _, rfl, by decide, by decide⟩
  · exact ⟨'"', _, rfl, by decide, by decide⟩

/-- The first chunk of a spelling, and the spelling of what it leaves. -/
theorem quoteChunks_cons (c : Char) (rest : Text) :
    quoteChunks (c :: rest) =
      (takeChunk (Ways.first c) rest).1.write (c :: (takeChunk (Ways.first c) rest).2.1)
        ++ quoteChunks (takeChunk (Ways.first c) rest).2.2 := by
  rw [quoteChunks]

theorem spells_quoteChunks (c : Char) (rest : Text) :
    Spells (quoteChunks (c :: rest)) (c :: rest) := by
  have hrun := fun finished => run_quoteChunks (c :: rest) finished []
  have hcover : (takeChunk (Ways.first c) rest).1.Covers (c :: (takeChunk (Ways.first c) rest).2.1) :=
    covers_takeChunk rest (Ways.covers_first c)
  obtain ⟨d, tail, hwrite, hsep, hhash⟩ := write_head hcover
  -- only the first character decides whether the spelling would be a gap or a comment
  rw [quoteChunks_cons, hwrite, List.cons_append] at hrun ⊢
  apply spells_of_run hsep hhash
  intro finished
  rw [hrun, List.append_nil]

/-- **The spelling that `quote?` finds for a word is one.** -/
theorem spells_quote? {word spelling : Text} (h : quote? word = some spelling) :
    Spells spelling word := by
  unfold quote? at h
  split at h
  · simp at h
  cases word with
  | nil =>
      simp only [List.isEmpty_nil, if_true, Option.some.injEq] at h
      subst h
      exact fun finished => rfl
  | cons c rest =>
      -- the empty word has a spelling of its own, so chunks are only made of a word with characters
      simp only [List.isEmpty_cons, Bool.false_eq_true, if_false, Option.some.injEq] at h
      subst h
      exact spells_quoteChunks c rest

/-- Only a NUL leaves a word without a spelling. -/
theorem quote?_eq_none_iff {word : Text} : quote? word = none ↔ '\x00' ∈ word := by
  unfold quote?
  split
  · next h => simpa using h
  · next h =>
      have hnul : '\x00' ∉ word := by simpa using h
      split <;> simp [hnul]

/-- The space behind a spelling finishes its word. -/
theorem run_spelling_space {spelling word : Text} (h : Spells spelling word)
    (finished : List Text) (rest : Text) :
    run ⟨finished, .gap⟩ (spelling ++ ' ' :: rest) = run ⟨word :: finished, .gap⟩ rest := by
  have hspace : step ⟨finished, .bare word.reverse⟩ ' ' =
      ⟨word.reverse.reverse :: finished, .gap⟩ := rfl
  rw [run_append, h, run_cons, hspace, List.reverse_reverse]

/-- Spellings are read as their words, also where more follows behind a space. -/
theorem run_joinWith_space {spellings words : List Text} (h : List.Forall₂ Spells spellings words)
    (hne : spellings ≠ []) (finished : List Text) (rest : Text) :
    run ⟨finished, .gap⟩ (joinWith [' '] spellings ++ ' ' :: rest) =
      run ⟨words.reverse ++ finished, .gap⟩ rest := by
  induction h generalizing finished with
  | nil => exact absurd rfl hne
  | @cons spelling word spellings words hword hrest ih =>
      by_cases hlast : spellings = []
      · subst hlast
        cases hrest
        exact run_spelling_space hword finished rest
      · rw [joinWith_cons hlast, List.append_assoc, List.append_assoc, List.singleton_append,
          run_spelling_space hword, ih hlast, List.reverse_cons, List.append_assoc]
        rfl

theorem result?_run_joinWith {spellings words : List Text} (h : List.Forall₂ Spells spellings words)
    (finished : List Text) :
    (run ⟨finished, .gap⟩ (joinWith [' '] spellings)).result? =
      some (finished.reverse ++ words) := by
  induction h generalizing finished with
  | nil => simp [joinWith, result?]
  | @cons spelling word spellings words hword hrest ih =>
      cases hrest with
      | nil =>
          -- the last word has no space behind it: the end of the text finishes it
          show (run ⟨finished, .gap⟩ spelling).result? = _
          rw [hword]
          simp [result?]
      | cons hnext hmore =>
          rw [joinWith_cons (by simp), List.append_assoc, List.singleton_append,
            run_spelling_space hword, ih]
          simp

/-- **Spellings with a space between them are read as their words.** -/
theorem words?_joinWith {spellings words : List Text} (h : List.Forall₂ Spells spellings words) :
    words? (joinWith [' '] spellings) = some words := by
  unfold words? start
  rw [result?_run_joinWith h]
  rfl

end PlainRequest.Shell
