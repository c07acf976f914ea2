/-
# PlainRequest.Proofs.Variable.Substitution — where tokens are found, and where they are not

A token is looked for at every place of a text, so a text in which none occurs is read to its end one
character at a time and stays as it is. The empty token occurs everywhere and is never replaced.

A text may be cut where no token lies across the cut: its parts are then replaced independently of each
other. A character that no token holds is such a cut, and stays where it is.
-/

import PlainRequest.Proofs.Text.Cutting
import PlainRequest.Variable.Substitution

namespace PlainRequest.Table

open Text

/-! ## One step -/

theorem applies_iff {text : Text} {entry : Text × Text} :
    applies text entry = true ↔ entry.1 ≠ [] ∧ entry.1 <+: text := by
  rw [applies, Bool.and_eq_true, Bool.not_eq_true', List.isEmpty_eq_false_iff, startsWith_iff]

/-- The longest token is one of the table, is not empty, and stands at the beginning of the text. -/
theorem of_longest? {table : Table} {text : Text} {entry : Text × Text}
    (h : table.longest? text = some entry) :
    entry ∈ table.entries ∧ entry.1 ≠ [] ∧ entry.1 <+: text := by
  obtain ⟨hmem, happlies⟩ := mem_and_applies_of_longest? h
  exact ⟨hmem, applies_iff.mp happlies⟩

theorem substitute_of_longest? {table : Table} {text token value : Text}
    (h : table.longest? text = some (token, value)) :
    table.substitute text = value ++ table.substitute (text.drop token.length) := by
  cases text with
  | nil =>
      -- only the empty token starts here, and it is not used
      obtain ⟨-, hne, hstarts⟩ := of_longest? h
      exact absurd (List.prefix_nil.mp hstarts) hne
  | cons c rest =>
      rw [substitute]
      split
      · next hsome =>
          obtain ⟨rfl, rfl⟩ := Prod.mk.inj (Option.some.inj (hsome.symm.trans h))
          rfl
      · next hnone =>
          rw [hnone] at h
          cases h

theorem substitute_of_none {table : Table} {c : Char} {rest : Text}
    (h : table.longest? (c :: rest) = none) :
    table.substitute (c :: rest) = c :: table.substitute rest := by
  rw [substitute]
  split
  · next hsome =>
      rw [hsome] at h
      cases h
  · rfl

/-! ## Texts without tokens -/

/-- **`table.Avoids text`** — no token of the table occurs in the text, the empty one apart. -/
def Avoids (table : Table) (text : Text) : Prop :=
  ∀ entry ∈ table.entries, entry.1 ≠ [] → ¬ entry.1 <:+: text

theorem Avoids.tail {table : Table} {c : Char} {rest : Text} (h : table.Avoids (c :: rest)) :
    table.Avoids rest := by
  intro entry hmem hne hoccurs
  apply h entry hmem hne
  exact hoccurs.trans (List.suffix_cons c rest).isInfix

/-- No token starts where none occurs. -/
theorem Avoids.longest?_eq_none {table : Table} {text : Text} (h : table.Avoids text) :
    table.longest? text = none := by
  cases hlongest : table.longest? text with
  | none => rfl
  | some entry =>
      obtain ⟨hmem, hne, hstarts⟩ := of_longest? hlongest
      exact absurd hstarts.isInfix (h entry hmem hne)

/-- **A text without tokens stays as it is.** -/
theorem Avoids.substitute_eq_self {table : Table} {text : Text} (h : table.Avoids text) :
    table.substitute text = text := by
  induction text with
  | nil => simp [substitute]
  | cons c rest ih =>
      rw [substitute_of_none h.longest?_eq_none, ih h.tail]

/-! ## Texts in two parts -/

/-- **`table.Straddles a b`** — a token of the table begins in `a` and ends in `b`, when `b` stands
directly behind `a`. -/
def Straddles (table : Table) (a b : Text) : Prop :=
  ∃ entry ∈ table.entries, ∃ front back, entry.1 = front ++ back ∧ front ≠ [] ∧ back ≠ [] ∧
    front <:+ a ∧ back <+: b

theorem Straddles.of_suffix {table : Table} {a a' b : Text} (h : table.Straddles a' b)
    (hsuffix : a' <:+ a) : table.Straddles a b := by
  obtain ⟨entry, hmem, front, back, htoken, hfront, hback, hends, hstarts⟩ := h
  exact ⟨entry, hmem, front, back, htoken, hfront, hback, hends.trans hsuffix, hstarts⟩

/-- What starts at the beginning of two parts ends in the first, unless it lies across the cut. -/
theorem applies_append {table : Table} {a b : Text} (hne : a ≠ []) (h : ¬ table.Straddles a b)
    {entry : Text × Text} (hmem : entry ∈ table.entries) :
    applies (a ++ b) entry = applies a entry := by
  have hiff : entry.1 <+: a ++ b ↔ entry.1 <+: a := by
    constructor
    · intro hboth
      rcases List.prefix_or_prefix_of_prefix hboth (List.prefix_append a b) with hfirst | hover
      · exact hfirst
      · obtain ⟨back, hback⟩ := hover
        rw [← hback, List.prefix_append_right_inj] at hboth
        by_cases hempty : back = []
        · have htoken : entry.1 = a := by rw [← hback, hempty, List.append_nil]
          exact htoken ▸ List.prefix_rfl
        · exact absurd ⟨entry, hmem, a, back, hback.symm, hne, hempty, List.suffix_rfl, hboth⟩ h
    · intro hfirst
      exact hfirst.trans (List.prefix_append a b)
  rw [Bool.eq_iff_iff, applies_iff, applies_iff, hiff]

theorem longest?_append {table : Table} {a b : Text} (hne : a ≠ []) (h : ¬ table.Straddles a b) :
    table.longest? (a ++ b) = table.longest? a := by
  have hsame : table.entries.filter (applies (a ++ b)) = table.entries.filter (applies a) :=
    List.filter_congr fun entry hmem => applies_append hne h hmem
  rw [longest?, longest?, hsame]

/-- **Two parts are replaced independently of each other** if no token lies across the cut. -/
theorem substitute_append {table : Table} {a b : Text} (h : ¬ table.Straddles a b) :
    table.substitute (a ++ b) = table.substitute a ++ table.substitute b := by
  induction a using substitute.induct table with
  | case1 => simp [substitute]
  | case2 c rest token value hlongest hpos ih =>
      have hlength : token.length ≤ (c :: rest).length := (of_longest? hlongest).2.2.length_le
      have hrest : ¬ table.Straddles ((c :: rest).drop token.length) b := by
        intro hover
        exact h (hover.of_suffix (List.drop_suffix _ _))
      have hboth := (longest?_append (List.cons_ne_nil c rest) h).trans hlongest
      rw [substitute_of_longest? hboth, substitute_of_longest? hlongest,
        List.drop_append_of_le_length hlength, ih hrest, List.append_assoc]
  | case3 c rest hnone ih =>
      have hrest : ¬ table.Straddles rest b := by
        intro hover
        exact h (hover.of_suffix (List.suffix_cons c rest))
      have hboth := (longest?_append (List.cons_ne_nil c rest) h).trans hnone
      rw [substitute_of_none hnone, List.cons_append, List.cons_append, ← ih hrest]
      exact substitute_of_none hboth

/-! ## Characters that no token holds -/

/-- **`table.TokensAvoid c`** — the character stands in no token. -/
def TokensAvoid (table : Table) (c : Char) : Prop := ∀ entry ∈ table.entries, c ∉ entry.1

/-- **`table.ValuesAvoid c`** — the character stands in no value. -/
def ValuesAvoid (table : Table) (c : Char) : Prop := ∀ entry ∈ table.entries, c ∉ entry.2

theorem TokensAvoid.longest?_eq_none {table : Table} {c : Char} (h : table.TokensAvoid c)
    (rest : Text) : table.longest? (c :: rest) = none := by
  cases hlongest : table.longest? (c :: rest) with
  | none => rfl
  | some entry =>
      obtain ⟨hmem, hne, hstarts⟩ := of_longest? hlongest
      -- the token would begin with the character
      obtain ⟨first, others, htoken⟩ := List.exists_cons_of_ne_nil hne
      rw [htoken, List.cons_prefix_cons] at hstarts
      exact absurd (by rw [htoken, hstarts.1]; exact List.mem_cons_self) (h entry hmem)

/-- No token lies across the place before a character that only begins tokens. -/
theorem not_straddles_cons {table : Table} {c : Char}
    (h : ∀ entry ∈ table.entries, c ∉ entry.1.tail) (a b : Text) :
    ¬ table.Straddles a (c :: b) := by
  rintro ⟨entry, hmem, front, back, htoken, hfront, hback, -, hstarts⟩
  obtain ⟨first, others, rfl⟩ := List.exists_cons_of_ne_nil hfront
  obtain ⟨next, behind, rfl⟩ := List.exists_cons_of_ne_nil hback
  rw [List.cons_prefix_cons] at hstarts
  apply h entry hmem
  rw [htoken, hstarts.1]
  simp

theorem TokensAvoid.not_straddles {table : Table} {c : Char} (h : table.TokensAvoid c)
    (a b : Text) : ¬ table.Straddles a (c :: b) :=
  not_straddles_cons (fun entry hmem hin => h entry hmem (List.mem_of_mem_tail hin)) a b

/-- **A character that no token holds is kept where it is**: what stands before it and what stands
behind it are replaced each for itself. -/
theorem TokensAvoid.substitute_append_cons {table : Table} {c : Char} (h : table.TokensAvoid c)
    (a b : Text) :
    table.substitute (a ++ c :: b) = table.substitute a ++ c :: table.substitute b := by
  rw [substitute_append (h.not_straddles a b), substitute_of_none (h.longest?_eq_none b)]

theorem TokensAvoid.mem_substitute {table : Table} {c : Char} (h : table.TokensAvoid c)
    {text : Text} (hmem : c ∈ text) : c ∈ table.substitute text := by
  obtain ⟨before, after, rfl⟩ := List.append_of_mem hmem
  rw [h.substitute_append_cons]
  simp

/-- A character that no value holds does not come in. -/
theorem ValuesAvoid.notMem_substitute {table : Table} {c : Char} (h : table.ValuesAvoid c)
    {text : Text} (hnot : c ∉ text) : c ∉ table.substitute text := by
  induction text using substitute.induct table with
  | case1 => simp [substitute]
  | case2 d rest token value hlongest hpos ih =>
      obtain ⟨hmem, -⟩ := of_longest? hlongest
      have hrest : c ∉ (d :: rest).drop token.length := fun hin => hnot (List.mem_of_mem_drop hin)
      rw [substitute_of_longest? hlongest, List.mem_append, not_or]
      exact ⟨h (token, value) hmem, ih hrest⟩
  | case3 d rest hnone ih =>
      rw [List.mem_cons, not_or] at hnot
      rw [substitute_of_none hnone, List.mem_cons, not_or]
      exact ⟨hnot.1, ih hnot.2⟩

/-- A character that stands in no token and in no value is in the text afterwards if and only if it was
before. -/
theorem mem_substitute_iff {table : Table} {c : Char} (htokens : table.TokensAvoid c)
    (hvalues : table.ValuesAvoid c) {text : Text} : c ∈ table.substitute text ↔ c ∈ text := by
  constructor
  · intro hmem
    by_cases hin : c ∈ text
    · exact hin
    · exact absurd hmem (hvalues.notMem_substitute hin)
  · exact htokens.mem_substitute

end PlainRequest.Table
