/-
# PlainRequest.Proofs.Text.Replacing — replacing every occurrence of a text

Occurrences of a text may overlap, so which of them are replaced has to be said: the leftmost one, and
then those in what stands behind it. `Replaced` says of a text and of what becomes of it that they are put
together in this way, and `replaceAll` does it. What has been put in is not looked at again.
-/

import PlainRequest.Text.Basic
import Mathlib.Data.List.Basic
import Mathlib.Data.List.Infix
import Mathlib.Data.Nat.Find

namespace PlainRequest.Text

/-! ## The leftmost occurrence -/

/-- **`Leftmost mark text before after`** — `mark` stands in `text` between `before` and `after`, and
nowhere further left. -/
structure Leftmost (mark text before after : Text) : Prop where
  here : text = before ++ mark ++ after
  least : ∀ front back, text = front ++ mark ++ back → before.length ≤ front.length

/-- What occurs at all has a leftmost occurrence. -/
theorem exists_leftmost {mark text : Text} (h : mark <:+: text) :
    ∃ before after, Leftmost mark text before after := by
  have hsome : ∃ place front back, text = front ++ mark ++ back ∧ front.length = place := by
    obtain ⟨front, back, htext⟩ := h
    exact ⟨front.length, front, back, htext.symm, rfl⟩
  classical
  obtain ⟨before, after, htext, hplace⟩ := Nat.find_spec hsome
  refine ⟨before, after, htext, ?_⟩
  intro front back hother
  rw [hplace]
  exact Nat.find_min' hsome ⟨front, back, hother, rfl⟩

/-- **Dropping a text where it occurs** cuts at its leftmost occurrence. -/
theorem dropInfix?_eq_some_iff {mark text before after : Text} :
    text.dropInfix? mark = some (before, after) ↔ Leftmost mark text before after := by
  rw [List.dropInfix?_eq_some_iff]
  constructor
  · rintro ⟨⟨found, htext, hfound⟩, hleast⟩
    obtain rfl := eq_of_beq hfound
    refine ⟨htext, ?_⟩
    intro front back hother
    exact hleast front found back hother hfound
  · intro h
    refine ⟨⟨mark, h.here, beq_self_eq_true mark⟩, ?_⟩
    intro front found back hother hfound
    obtain rfl := eq_of_beq hfound
    exact h.least front back hother

theorem dropInfix?_eq_none_iff {mark text : Text} :
    text.dropInfix? mark = none ↔ ¬ mark <:+: text := by
  constructor
  · intro hnone hoccurs
    obtain ⟨before, after, hleftmost⟩ := exists_leftmost hoccurs
    rw [dropInfix?_eq_some_iff.mpr hleftmost] at hnone
    cases hnone
  · intro hnot
    cases hcut : text.dropInfix? mark with
    | none => rfl
    | some parts =>
        have hleftmost := dropInfix?_eq_some_iff.mp hcut
        exact absurd ⟨parts.1, parts.2, hleftmost.here.symm⟩ hnot

/-- What stands behind an occurrence is shorter than the text. -/
theorem Leftmost.length_lt {mark text before after : Text} (h : Leftmost mark text before after)
    (hne : mark ≠ []) : after.length < text.length := by
  have hpos : 0 < mark.length := List.length_pos_iff.mpr hne
  have hlength := congrArg List.length h.here
  rw [List.length_append, List.length_append] at hlength
  omega

/-- With one character less in front, the leftmost occurrence is where it was. -/
theorem Leftmost.tail {mark before after rest : Text} {c d : Char}
    (h : Leftmost mark (c :: rest) (d :: before) after) : Leftmost mark rest before after := by
  refine ⟨(List.cons.inj h.here).2, ?_⟩
  intro front back hrest
  have hless := h.least (c :: front) back (by rw [hrest]; rfl)
  rw [List.length_cons, List.length_cons] at hless
  omega

/-! ## Replacing -/

/-- Replace `old` by `new` wherever it occurs: at the leftmost place, and then in what stands behind it.
The empty text occurs before every character and at the end. -/
def replaceAll (old new text : Text) : Text :=
  if hne : old = [] then new ++ text.flatMap fun c => c :: new
  else
    match hcut : text.dropInfix? old with
    | none => text
    | some (before, after) =>
        have : after.length < text.length := (dropInfix?_eq_some_iff.mp hcut).length_lt hne
        before ++ new ++ replaceAll old new after
termination_by text.length

/-- **`Replaced old new text result`** — `result` is `text` with `new` in the place of every `old`, the
leftmost one first, and no other character changed. -/
inductive Replaced (old new : Text) : Text → Text → Prop
  | done {text : Text} (h : ¬ old <:+: text) : Replaced old new text text
  | next {text before after result : Text} (h : Leftmost old text before after)
      (hrest : Replaced old new after result) : Replaced old new text (before ++ new ++ result)

theorem replaced_replaceAll {old : Text} (hne : old ≠ []) (new text : Text) :
    Replaced old new text (replaceAll old new text) := by
  fun_induction replaceAll old new text with
  | case1 text hempty => exact absurd hempty hne
  | case2 text hold hcut => exact .done (dropInfix?_eq_none_iff.mp hcut)
  | case3 text hold before after hcut hlt ih => exact .next (dropInfix?_eq_some_iff.mp hcut) ih

-- two occurrences that overlap, and the empty text
example : replaceAll "aa".toList "ab".toList "aaaaa".toList = "ababa".toList ∧
    replaceAll [] "-".toList "ab".toList = "-a-b-".toList := by
  decide +kernel

/-! ## Replacing a character -/

/-- In front of the leftmost occurrence of a character there is none. -/
theorem Leftmost.notMem {c : Char} {text before after : Text} (h : Leftmost [c] text before after) :
    c ∉ before := by
  intro hmem
  obtain ⟨front, back, rfl⟩ := List.append_of_mem hmem
  have hless := h.least front (back ++ [c] ++ after) (by rw [h.here]; simp)
  rw [List.length_append, List.length_cons] at hless
  omega

theorem flatMap_of_notMem {c : Char} {text : Text} (h : c ∉ text) (new : Text) :
    text.flatMap (fun d => if d = c then new else [d]) = text := by
  refine (List.flatMap_congr fun d hd => ?_).trans (List.flatMap_singleton' text)
  rw [if_neg]
  rintro rfl
  exact h hd

theorem eq_flatMap_of_replaced {c : Char} {new text result : Text}
    (h : Replaced [c] new text result) :
    result = text.flatMap fun d => if d = c then new else [d] := by
  induction h with
  | @done text h =>
      rw [List.singleton_infix_iff] at h
      exact (flatMap_of_notMem h new).symm
  | next h _ ih =>
      rw [h.here, List.flatMap_append, List.flatMap_append, flatMap_of_notMem h.notMem, ← ih,
        List.flatMap_singleton, if_pos rfl]

/-- **A single character is replaced wherever it stands**: its occurrences do not overlap. -/
theorem replaceAll_singleton (c : Char) (new text : Text) :
    replaceAll [c] new text = text.flatMap fun d => if d = c then new else [d] :=
  eq_flatMap_of_replaced (replaced_replaceAll (by simp) new text)

end PlainRequest.Text
