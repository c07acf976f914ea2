/-
# PlainRequest.Proofs.Shell.Pieces — commands put together from pieces

Which words have been finished does not influence how the next character is read. So a text that has
words of its own has the same words behind any other words, provided that a word ends where it begins
and that it does not end inside a comment, which would swallow what comes behind it. Pieces of a command
with a space between them are then read as the words of the first, those of the second, and so on,
whatever is quoted in them.
-/

import PlainRequest.Shell.Words
import Mathlib.Data.List.Forall2
import Mathlib.Data.List.Induction

namespace PlainRequest.Shell

open Text State

/-! ## What is finished does not matter -/

/-- `state` behind other words, which were finished before. -/
def State.behind (finished : List Text) (state : State) : State :=
  ⟨state.finished ++ finished, state.mode⟩

theorem step_behind (finished : List Text) (state : State) (c : Char) :
    (state.behind finished).step c = (state.step c).behind finished := by
  obtain ⟨own, mode⟩ := state
  cases mode with
  | gap =>
      simp only [State.behind, step]
      split
      · rfl
      · split <;> rfl
  | comment => rfl
  | bare word =>
      simp only [State.behind, step]
      split <;> rfl
  | bareEscape word => rfl
  | single word => rfl
  | double word =>
      simp only [State.behind, step]
      split
      · rfl
      · split <;> rfl
  | doubleEscape word =>
      simp only [State.behind, step]
      split
      · rfl
      · split <;> rfl

/-- **Words that are finished stay as they are**, whatever is read behind them. -/
theorem run_behind (finished : List Text) (state : State) (text : Text) :
    (state.behind finished).run text = (state.run text).behind finished := by
  induction text generalizing state with
  | nil => rfl
  | cons c rest ih => rw [run_cons, run_cons, step_behind, ih]

theorem result?_behind (finished : List Text) (state : State) :
    (state.behind finished).result? = state.result?.map (finished.reverse ++ ·) := by
  obtain ⟨own, mode⟩ := state
  cases mode <;> simp [State.behind, result?]

/-- A gap behind finished words is the start, behind them. -/
theorem behind_start (finished : List Text) : State.start.behind finished = ⟨finished, .gap⟩ := rfl

/-! ## Comments -/

/-- **`Uncommented text`** — no `#` stands where a word could start. -/
def Uncommented (text : Text) : Prop :=
  ∀ before after, text = before ++ '#' :: after → (start.run before).mode ≠ .gap

/-- It is decided at each `#` of the text. -/
theorem uncommented_iff (text : Text) :
    Uncommented text ↔
      ∀ i < text.length, text[i]? = some '#' → (start.run (text.take i)).mode ≠ .gap := by
  constructor
  · intro h i hi hmark
    apply h (text.take i) (text.drop (i + 1))
    rw [List.getElem?_eq_getElem hi, Option.some.injEq] at hmark
    rw [← hmark, List.getElem_cons_drop, List.take_append_drop]
  · rintro h before after rfl
    have hmode := h before.length (by simp) (by simp)
    rwa [List.take_left] at hmode

instance (text : Text) : Decidable (Uncommented text) :=
  decidable_of_iff _ (uncommented_iff text).symm

theorem bareMode_ne_comment (word : Text) (c : Char) : bareMode word c ≠ .comment := by
  unfold bareMode
  split
  · exact nofun
  split
  · exact nofun
  split
  · exact nofun
  · exact nofun

/-- A comment begins with `#` in a gap, and in no other way. -/
theorem of_step_comment {state : State} {c : Char} (h : (state.step c).mode = .comment) :
    state.mode = .comment ∨ state.mode = .gap ∧ c = '#' := by
  obtain ⟨finished, mode⟩ := state
  cases mode with
  | gap =>
      right
      refine ⟨rfl, ?_⟩
      simp only [step] at h
      split at h
      · cases h
      · split at h
        · next hhash => exact hhash
        · exact absurd h (bareMode_ne_comment [] c)
  | comment => exact .inl rfl
  | bare word =>
      simp only [step] at h
      split at h
      · cases h
      · exact absurd h (bareMode_ne_comment word c)
  | bareEscape word => cases h
  | single word =>
      simp only [step] at h
      split at h <;> cases h
  | double word =>
      simp only [step] at h
      split at h
      · cases h
      · split at h <;> cases h
  | doubleEscape word =>
      simp only [step] at h
      split at h
      · cases h
      · split at h <;> cases h

/-- Where no comment begins, the text does not end in one. -/
theorem Uncommented.mode_ne_comment {text : Text} (h : Uncommented text) :
    (start.run text).mode ≠ .comment := by
  induction text using List.reverseRecOn with
  | nil => exact nofun
  | append_singleton text c ih =>
      have hfront : Uncommented text := by
        rintro before after rfl
        exact h before (after ++ [c]) (by simp)
      intro hcomment
      rw [run_append] at hcomment
      rcases of_step_comment hcomment with hold | ⟨hgap, rfl⟩
      · exact ih hfront hold
      · exact h text [] rfl hgap

theorem Uncommented.head? {text : Text} (h : Uncommented text) : text.head? ≠ some '#' := by
  cases text with
  | nil => exact nofun
  | cons c rest =>
      intro hhead
      obtain rfl := Option.some.inj hhead
      exact h [] rest rfl rfl

/-! ## Pieces -/

/-- **`IsPiece text words`** — the text has these words, and no comment. -/
structure IsPiece (text : Text) (words : List Text) : Prop where
  words : words? text = some words
  uncommented : Uncommented text

instance (text : Text) (words : List Text) : Decidable (IsPiece text words) :=
  decidable_of_iff (words? text = some words ∧ Uncommented text)
    ⟨fun ⟨hwords, hmarks⟩ => ⟨hwords, hmarks⟩, fun ⟨hwords, hmarks⟩ => ⟨hwords, hmarks⟩⟩

/-- A space behind a piece finishes its words. -/
theorem IsPiece.run_space {text : Text} {words : List Text} (h : IsPiece text words) :
    (start.run text).step ' ' = ⟨words.reverse, .gap⟩ := by
  have hwords := h.words
  have hcomment := h.uncommented.mode_ne_comment
  rw [words?] at hwords
  cases hstate : start.run text with
  | mk finished mode =>
      rw [hstate] at hwords hcomment
      cases mode with
      | gap =>
          obtain rfl := Option.some.inj hwords
          rw [List.reverse_reverse]
          rfl
      | bare word =>
          obtain rfl := Option.some.inj hwords
          rw [List.reverse_reverse]
          rfl
      | comment => exact absurd rfl hcomment
      | bareEscape word => cases hwords
      | single word => cases hwords
      | double word => cases hwords
      | doubleEscape word => cases hwords

/-- A piece and a space, behind other words. -/
theorem IsPiece.run_append_space {text : Text} {words : List Text} (h : IsPiece text words)
    (finished : List Text) (rest : Text) :
    run ⟨finished, .gap⟩ (text ++ ' ' :: rest) = run ⟨words.reverse ++ finished, .gap⟩ rest := by
  rw [← behind_start, run_append, run_behind, run_cons, step_behind, h.run_space]
  rfl

theorem result?_run_pieces {pieces : List Text} {words : List (List Text)}
    (h : List.Forall₂ IsPiece pieces words) (finished : List Text) :
    (run ⟨finished, .gap⟩ (joinWith [' '] pieces)).result? =
      some (finished.reverse ++ words.flatten) := by
  induction h generalizing finished with
  | nil => simp [joinWith, result?]
  | @cons piece own pieces words hpiece hrest ih =>
      cases hrest with
      | nil =>
          -- the last piece has no space behind it: the end of the text finishes its words
          show (run ⟨finished, .gap⟩ piece).result? = _
          rw [← behind_start, run_behind, result?_behind]
          have hown : (start.run piece).result? = some own := hpiece.words
          rw [hown, List.flatten_cons, List.flatten_nil, List.append_nil]
          rfl
      | cons hnext hmore =>
          rw [joinWith_cons (by simp), List.append_assoc, List.singleton_append,
            hpiece.run_append_space, ih]
          simp

/-- **Pieces with a space between them are read as the words of all of them.** -/
theorem words?_pieces {pieces : List Text} {words : List (List Text)}
    (h : List.Forall₂ IsPiece pieces words) :
    words? (joinWith [' '] pieces) = some words.flatten :=
  result?_run_pieces h []

end PlainRequest.Shell
