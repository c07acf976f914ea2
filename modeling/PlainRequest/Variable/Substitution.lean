/-
# PlainRequest.Variable.Substitution — replacing tokens by their values

A text is read once from left to right. Where a token starts, the longest such token is replaced by
its value and reading goes on behind it, so that a value is never searched for tokens; where none
starts, one character is kept.
-/

import PlainRequest.Variable.Table

namespace PlainRequest.Table

open Text

/-- Can the entry be used at the start of `text`? An empty token never can. -/
def applies (text : Text) (entry : Text × Text) : Bool :=
  ! entry.1.isEmpty && startsWith entry.1 text

/-- The entry with the longer token, the second one when both are as long. -/
def longer (a b : Text × Text) : Text × Text := if a.1.length ≤ b.1.length then b else a

/-- The entry with the longest token that `text` starts with. -/
def longest? (table : Table) (text : Text) : Option (Text × Text) :=
  match table.entries.filter (applies text) with
  | [] => none
  | entry :: entries => some (entries.foldl longer entry)

theorem foldl_longer_mem (entry : Text × Text) (entries : List (Text × Text)) :
    entries.foldl longer entry ∈ entry :: entries := by
  induction entries generalizing entry with
  | nil => simp
  | cons e es ih =>
      have h := ih (longer entry e)
      simp only [List.foldl_cons]
      rcases List.mem_cons.mp h with h | h
      · rw [h]
        unfold longer
        split <;> simp
      · exact List.mem_cons_of_mem _ (List.mem_cons_of_mem _ h)

/-- The longest token is one of the table and the text starts with it. -/
theorem mem_and_applies_of_longest? {table : Table} {text : Text} {entry : Text × Text}
    (h : table.longest? text = some entry) :
    entry ∈ table.entries ∧ applies text entry = true := by
  unfold longest? at h
  split at h
  · simp at h
  · next first others hfilter =>
      simp only [Option.some.injEq] at h
      have hmem := foldl_longer_mem first others
      rw [h, ← hfilter] at hmem
      exact List.mem_filter.mp hmem

theorem length_pos_of_longest? {table : Table} {text : Text} {entry : Text × Text}
    (h : table.longest? text = some entry) : 0 < entry.1.length := by
  have happ := (mem_and_applies_of_longest? h).2
  simp only [applies, Bool.and_eq_true, Bool.not_eq_true', List.isEmpty_eq_false_iff] at happ
  exact List.length_pos_iff.mpr happ.1

/-- Replace tokens by their values, leftmost first and the longest first among those. -/
def substitute (table : Table) : Text → Text
  | [] => []
  | c :: rest =>
      match h : table.longest? (c :: rest) with
      | some (token, value) =>
          have : 0 < token.length := length_pos_of_longest? h
          value ++ substitute table ((c :: rest).drop token.length)
      | none => c :: substitute table rest
termination_by text => text.length
decreasing_by
  · simp only [List.length_drop, List.length_cons]
    omega
  · simp

/-- Without tokens a text stays as it is. -/
@[simp] theorem substitute_empty (text : Text) : substitute empty text = text := by
  induction text with
  | nil => simp [substitute]
  | cons c rest ih =>
      rw [substitute]
      split
      · next h => simp [longest?] at h
      · rw [ih]

end PlainRequest.Table
