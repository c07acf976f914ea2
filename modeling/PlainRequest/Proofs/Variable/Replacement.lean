/-
# PlainRequest.Proofs.Variable.Replacement — tables with one variable

With one variable there is nothing to choose from: where its token starts, it is the longest one that
does. Reading goes from left to right, so the first token that is found is the leftmost occurrence, and
it goes on behind that one. So substitution is the replacing of every occurrence of the token, also when
occurrences overlap and when the value holds the token.
-/

import PlainRequest.Proofs.Text.Replacing
import PlainRequest.Proofs.Variable.Substitution

namespace PlainRequest.Table

open Text

section

variable {table : Table} {token value : Text}

/-- The one variable is used where its token starts. -/
theorem longest?_of_starts (hentries : table.entries = [(token, value)]) (hne : token ≠ [])
    {text : Text} (hstarts : token <+: text) : table.longest? text = some (token, value) := by
  have happlies : applies text (token, value) = true := applies_iff.mpr ⟨hne, hstarts⟩
  rw [longest?, hentries, List.filter_cons_of_pos happlies, List.filter_nil]
  rfl

/-- And nothing is used elsewhere. -/
theorem longest?_of_not_starts (hentries : table.entries = [(token, value)]) {text : Text}
    (hstarts : ¬ token <+: text) : table.longest? text = none := by
  cases hlongest : table.longest? text with
  | none => rfl
  | some entry =>
      obtain ⟨hmem, -, hbegins⟩ := of_longest? hlongest
      rw [hentries, List.mem_singleton] at hmem
      rw [hmem] at hbegins
      exact absurd hbegins hstarts

/-- **Reading comes to the leftmost occurrence**: what stands before it is kept, it is replaced, and
reading goes on behind it. -/
theorem substitute_of_leftmost (hentries : table.entries = [(token, value)]) (hne : token ≠ [])
    {text before after : Text} (h : Leftmost token text before after) :
    table.substitute text = before ++ value ++ table.substitute after := by
  induction before generalizing text with
  | nil =>
      have hstarts : token <+: text := ⟨after, h.here.symm⟩
      have hdrop : text.drop token.length = after := by
        rw [h.here]
        exact List.drop_left
      rw [substitute_of_longest? (longest?_of_starts hentries hne hstarts), hdrop]
      rfl
  | cons c before ih =>
      have htext : text = c :: (before ++ token ++ after) := h.here
      -- a token here would be an occurrence further left
      have hstarts : ¬ token <+: text := by
        rintro ⟨rest, hrest⟩
        exact absurd (h.least [] rest hrest.symm) (by simp)
      have hnone := longest?_of_not_starts hentries hstarts
      rw [htext] at h hnone ⊢
      rw [substitute_of_none hnone, ih h.tail]
      rfl

/-- **Whatever replacing gives, substitution gives.** -/
theorem substitute_eq_of_replaced (hentries : table.entries = [(token, value)]) (hne : token ≠ [])
    {text result : Text} (h : Replaced token value text result) :
    table.substitute text = result := by
  induction h with
  | @done text hnot =>
      apply Avoids.substitute_eq_self
      intro entry hmem _
      rw [hentries, List.mem_singleton] at hmem
      rw [hmem]
      exact hnot
  | next hleftmost _ ih => rw [substitute_of_leftmost hentries hne hleftmost, ih]

end

/-- **With one variable, substitution is replacing.** A table with one token, which is not empty, does to
every text what replacing every occurrence of the token by the value does: the leftmost occurrence is
replaced, then the leftmost one behind it, and all other text stays. Nothing else is such a replacing. -/
theorem substitute_eq_replaceAll {table : Table} {token value : Text}
    (hentries : table.entries = [(token, value)]) (hne : token ≠ []) (text : Text) :
    table.substitute text = replaceAll token value text ∧
      ∀ result, Replaced token value text result ↔ result = table.substitute text := by
  have hreplaced : Replaced token value text (replaceAll token value text) :=
    replaced_replaceAll hne value text
  have hsame : table.substitute text = replaceAll token value text :=
    substitute_eq_of_replaced hentries hne hreplaced
  refine ⟨hsame, ?_⟩
  intro result
  constructor
  · intro h
    exact (substitute_eq_of_replaced hentries hne h).symm
  · rintro rfl
    rw [hsame]
    exact hreplaced

/-- A token that overlaps with itself, and a value that holds it. -/
theorem substitute_eq_replaceAll_overlapping :
    let table := empty.insert ":a:".toList "(:a:)".toList
    table.entries = [(":a:".toList, "(:a:)".toList)] ∧ ":a:".toList ≠ [] ∧
      table.substitute "x:a:a:a:".toList = "x(:a:)a(:a:)".toList := by
  intro table
  refine ⟨rfl, by decide, ?_⟩
  rw [(substitute_eq_replaceAll rfl (by decide) "x:a:a:a:".toList).1]
  decide +kernel

end PlainRequest.Table
