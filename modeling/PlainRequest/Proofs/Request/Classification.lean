/-
# PlainRequest.Proofs.Request.Classification — variables and what a body is

Body lines are classified after their variables were replaced, so a value can make a form of them. It
cannot unmake one: no token holds an `=`, so every `=` of a line is still there afterwards. When the
values hold none either, the first `=` of a line is the same one before and after. A form can then be cut
into names and values first, and each of these have its variables replaced for itself.
-/

import PlainRequest.Proofs.Keyed
import PlainRequest.Proofs.Line
import PlainRequest.Proofs.Request.Reading
import PlainRequest.Proofs.Request.Shape
import PlainRequest.Proofs.Variable.Declaration
import PlainRequest.Proofs.Variable.Substitution
import Mathlib.Data.List.Forall2

namespace PlainRequest

open Text Keyed

/-- **`Cuts line parts`** — the line is cut at its first `=` into the name and the value. -/
def Cuts (line : Text) (parts : Text × Text) : Prop :=
  line = parts.1 ++ '=' :: parts.2 ∧ '=' ∉ parts.1

theorem Cuts.splitFirst? {line : Text} {parts : Text × Text} (h : Cuts line parts) :
    splitFirst? '=' line = some parts := by
  obtain ⟨rfl, hname⟩ := h
  exact Line.splitFirst?_append hname

theorem exists_cuts_iff {line : Text} : (∃ parts, Cuts line parts) ↔ '=' ∈ line := by
  constructor
  · rintro ⟨parts, rfl, -⟩
    simp
  · intro hmem
    obtain ⟨before, after, hline, hbefore⟩ := List.eq_append_cons_of_mem hmem
    exact ⟨(before, after), hline, hbefore⟩

/-! ## Forms -/

namespace Body

/-- **`fieldsOf parts`** — the fields that names and values make: each name where it appears first, with
what its last value is read as. -/
def fieldsOf (parts : List (Text × Text)) : List (Text × FieldValue) :=
  putAll (mapValues FieldValue.ofText parts) []

theorem formLines_of_cuts {lines : List Text} {parts : List (Text × Text)}
    (h : List.Forall₂ Cuts lines parts) : formLines lines = mapValues FieldValue.ofText parts := by
  induction h with
  | nil => rfl
  | @cons line part lines parts hline _ ih =>
      rw [formLines] at ih ⊢
      rw [List.filterMap_cons, hline.splitFirst?, ih]
      rfl

theorem equals_mem_of_cuts {lines : List Text} {parts : List (Text × Text)}
    (h : List.Forall₂ Cuts lines parts) : ∀ line ∈ lines, '=' ∈ line := by
  induction h with
  | nil => simp
  | cons hline _ ih => exact List.forall_mem_cons.mpr ⟨exists_cuts_iff.mp ⟨_, hline⟩, ih⟩

/-- **Lines that are cut at an `=` are a form.** -/
theorem ofLines_of_cuts {lines : List Text} {parts : List (Text × Text)} (hne : lines ≠ [])
    (h : List.Forall₂ Cuts lines parts) : ofLines lines = .form (fieldsOf parts) := by
  have hall : (! lines.isEmpty && lines.all (·.contains '=')) = true := by
    simpa [hne] using equals_mem_of_cuts h
  rw [ofLines, if_pos hall, formLines_of_cuts h, fieldsOf]

theorem exists_forall₂_cuts {lines : List Text} (h : ∀ line ∈ lines, '=' ∈ line) :
    ∃ parts, List.Forall₂ Cuts lines parts := by
  induction lines with
  | nil => exact ⟨[], .nil⟩
  | cons line lines ih =>
      obtain ⟨part, hpart⟩ := exists_cuts_iff.mpr (h line List.mem_cons_self)
      obtain ⟨parts, hparts⟩ := ih fun other hmem => h other (List.mem_cons_of_mem _ hmem)
      exact ⟨part :: parts, .cons hpart hparts⟩

/-- **When lines are a form**: there is a line, and every line has an `=`. -/
theorem ofLines_form_iff {lines : List Text} :
    (∃ fields, ofLines lines = .form fields) ↔ lines ≠ [] ∧ ∀ line ∈ lines, '=' ∈ line := by
  constructor
  · rintro ⟨fields, hform⟩
    unfold ofLines at hform
    split at hform
    · next hall => simpa using hall
    · cases hform
  · rintro ⟨hne, hequals⟩
    obtain ⟨parts, hparts⟩ := exists_forall₂_cuts hequals
    exact ⟨fieldsOf parts, ofLines_of_cuts hne hparts⟩

/-- A form that is read has a field. -/
theorem ne_nil_of_ofLines {lines : List Text} {fields : List (Text × FieldValue)}
    (h : ofLines lines = .form fields) : fields ≠ [] := by
  obtain ⟨hne, hequals⟩ := ofLines_form_iff.mp ⟨fields, h⟩
  obtain ⟨parts, hparts⟩ := exists_forall₂_cuts hequals
  rw [ofLines_of_cuts hne hparts] at h
  obtain rfl := Body.form.inj h
  cases hparts with
  | nil => exact absurd rfl hne
  | @cons line part lines parts =>
      intro hnil
      have hfirst := (keys_prefix_putAll (mapValues FieldValue.ofText parts)
        [(part.1, FieldValue.ofText part.2)]).subset List.mem_cons_self
      rw [show putAll (mapValues FieldValue.ofText parts) [(part.1, FieldValue.ofText part.2)] = []
        from hnil] at hfirst
      cases hfirst

end Body

theorem Request.ne_nil_of_form {table : Table} {block : List Text} {request : Request}
    {fields : List (Text × FieldValue)} (h : Request.ofBlock table block = .ok request)
    (hform : request.body = .form fields) : fields ≠ [] := by
  rw [Request.ofBlock_eq_map] at h
  cases hhead : Head.ofBlock table block with
  | error failure =>
      rw [hhead] at h
      cases h
  | ok head =>
      rw [hhead] at h
      obtain rfl := Except.ok.inj h
      exact Body.ne_nil_of_ofLines hform

/-! ## Forms with variables -/

namespace Table

/-- A name and a value with the variables replaced in both. -/
def substituteBoth (table : Table) (parts : Text × Text) : Text × Text :=
  (table.substitute parts.1, table.substitute parts.2)

/-- **The first `=` stays the first**: replacing variables in a line is replacing them in its name and in
its value. -/
theorem cuts_substitute {table : Table} (htokens : table.TokensAvoid '=')
    (hvalues : table.ValuesAvoid '=') {line : Text} {parts : Text × Text} (h : Cuts line parts) :
    Cuts (table.substitute line) (table.substituteBoth parts) := by
  obtain ⟨rfl, hname⟩ := h
  exact ⟨htokens.substitute_append_cons _ _, hvalues.notMem_substitute hname⟩

theorem forall₂_cuts_substitute {table : Table} (htokens : table.TokensAvoid '=')
    (hvalues : table.ValuesAvoid '=') {lines : List Text} {parts : List (Text × Text)}
    (h : List.Forall₂ Cuts lines parts) :
    List.Forall₂ Cuts (lines.map table.substitute) (parts.map table.substituteBoth) := by
  rw [List.forall₂_map_left_iff, List.forall₂_map_right_iff]
  exact h.imp fun _ _ hcut => cuts_substitute htokens hvalues hcut

/-- **A form stays a form** when variables are replaced. -/
theorem ofLines_map_substitute_of_form {table : Table} (htokens : table.TokensAvoid '=')
    {lines : List Text} (h : ∃ fields, Body.ofLines lines = .form fields) :
    ∃ fields, Body.ofLines (lines.map table.substitute) = .form fields := by
  rw [Body.ofLines_form_iff] at h ⊢
  obtain ⟨hne, hequals⟩ := h
  refine ⟨by simpa using hne, ?_⟩
  intro line hline
  obtain ⟨source, hsource, rfl⟩ := List.mem_map.mp hline
  exact htokens.mem_substitute (hequals source hsource)

/-- Without `=` in the values, nothing else becomes a form. -/
theorem ofLines_map_substitute_form_iff {table : Table} (htokens : table.TokensAvoid '=')
    (hvalues : table.ValuesAvoid '=') {lines : List Text} :
    (∃ fields, Body.ofLines (lines.map table.substitute) = .form fields) ↔
      ∃ fields, Body.ofLines lines = .form fields := by
  rw [Body.ofLines_form_iff, Body.ofLines_form_iff]
  simp only [ne_eq, List.map_eq_nil_iff, List.forall_mem_map,
    mem_substitute_iff htokens hvalues]

/-- **A form cut first, its variables replaced afterwards**: in each name and in each value for itself. -/
theorem ofLines_map_substitute_of_cuts {table : Table} (htokens : table.TokensAvoid '=')
    (hvalues : table.ValuesAvoid '=') {lines : List Text} {parts : List (Text × Text)}
    (hne : lines ≠ []) (h : List.Forall₂ Cuts lines parts) :
    ∃ fields, Body.ofLines (lines.map table.substitute) = .form fields ∧
      LastWins (parts.map fun (name, value) =>
        (table.substitute name, FieldValue.ofText (table.substitute value))) fields := by
  have hboth : mapValues FieldValue.ofText (parts.map table.substituteBoth) =
      parts.map fun (name, value) =>
        (table.substitute name, FieldValue.ofText (table.substitute value)) := by
    rw [mapValues, List.map_map]
    rfl
  refine ⟨Body.fieldsOf (parts.map table.substituteBoth), ?_, ?_⟩
  · apply Body.ofLines_of_cuts
    · simpa using hne
    · exact forall₂_cuts_substitute htokens hvalues h
  · rw [← hboth]
    exact lastWins_putAll _

/-- The tokens of a resolved table hold no `=`. -/
theorem tokensAvoid_resolve (document block : List Text) :
    (resolve document block).TokensAvoid '=' := by
  intro entry hmem
  obtain ⟨scope, htoken⟩ := isToken_of_mem_resolve hmem
  exact htoken.equals_notMem

end Table

/-! ## Blocks that give a form -/

namespace Request

/-- **`GivesForm table block fields`** — with the table, the block is read as a request whose body is a
form of these fields. -/
def GivesForm (table : Table) (block : List Text) (fields : List (Text × FieldValue)) : Prop :=
  ∃ request, ofBlock table block = .ok request ∧ request.body = .form fields

/-- What the body of a block is with variables, seen on the lines it has without. -/
theorem givesForm_iff {table : Table} {block : List Text} {fields : List (Text × FieldValue)} :
    GivesForm table block fields ↔ ∃ head, Head.ofBlock Table.empty block = .ok head ∧
      Body.ofLines (head.bodyLines.map table.substitute) = .form fields := by
  rw [GivesForm, ofBlock_eq_map, Head.ofBlock_eq_fill]
  cases Head.ofBlock Table.empty block with
  | error failure => simp [Except.map]
  | ok head => simp [Except.map, Head.fill]

/-- Whether a block gives a form at all. -/
theorem exists_givesForm_iff {table : Table} {block : List Text} :
    (∃ fields, GivesForm table block fields) ↔ ∃ head, Head.ofBlock Table.empty block = .ok head ∧
      ∃ fields, Body.ofLines (head.bodyLines.map table.substitute) = .form fields := by
  constructor
  · rintro ⟨fields, hform⟩
    obtain ⟨head, hread, hlines⟩ := givesForm_iff.mp hform
    exact ⟨head, hread, fields, hlines⟩
  · rintro ⟨head, hread, fields, hlines⟩
    exact ⟨fields, givesForm_iff.mpr ⟨head, hread, hlines⟩⟩

/-- Without variables, the lines are classified as they are. -/
theorem exists_givesForm_empty_iff {block : List Text} :
    (∃ fields, GivesForm Table.empty block fields) ↔
      ∃ head, Head.ofBlock Table.empty block = .ok head ∧
        ∃ fields, Body.ofLines head.bodyLines = .form fields := by
  have hempty : Table.empty.substitute = id := funext Table.substitute_empty
  rw [exists_givesForm_iff, hempty]
  simp only [List.map_id]

theorem exists_givesForm_of_empty {table : Table} {block : List Text}
    (htokens : table.TokensAvoid '=') (h : ∃ fields, GivesForm Table.empty block fields) :
    ∃ fields, GivesForm table block fields := by
  obtain ⟨head, hread, hform⟩ := exists_givesForm_empty_iff.mp h
  exact exists_givesForm_iff.mpr
    ⟨head, hread, Table.ofLines_map_substitute_of_form htokens hform⟩

theorem exists_givesForm_iff_empty {table : Table} {block : List Text}
    (htokens : table.TokensAvoid '=') (hvalues : table.ValuesAvoid '=') :
    (∃ fields, GivesForm table block fields) ↔ ∃ fields, GivesForm Table.empty block fields := by
  rw [exists_givesForm_iff, exists_givesForm_empty_iff]
  simp only [Table.ofLines_map_substitute_form_iff htokens hvalues]

/-- **Variables and forms.** A block that gives a form without its variables gives one with them, whatever
their values are. When no value holds an `=`, a block that gives no form without them gives none with
them; and a form may be cut first: each line at its first `=` as it is written, the variables replaced in
the name and in the value, and the values read only then. Of fields that have one name after that, the
first keeps its place and the last its value. -/
theorem givesForm_resolve (document block : List Text) :
    ((∃ fields, GivesForm Table.empty block fields) →
      ∃ fields, GivesForm (Table.resolve document block) block fields) ∧
    ((Table.resolve document block).ValuesAvoid '=' →
      ((∃ fields, GivesForm (Table.resolve document block) block fields) ↔
        ∃ fields, GivesForm Table.empty block fields) ∧
      ∀ head, Head.ofBlock Table.empty block = .ok head →
        (∃ fields, Body.ofLines head.bodyLines = .form fields) →
        ∃ parts fields, List.Forall₂ Cuts head.bodyLines parts ∧
          LastWins (parts.map fun (name, value) =>
            ((Table.resolve document block).substitute name,
              FieldValue.ofText ((Table.resolve document block).substitute value))) fields ∧
          Body.ofLines (head.bodyLines.map (Table.resolve document block).substitute) =
            .form fields ∧
          GivesForm (Table.resolve document block) block fields) := by
  have htokens := Table.tokensAvoid_resolve document block
  refine ⟨exists_givesForm_of_empty htokens, ?_⟩
  intro hvalues
  refine ⟨exists_givesForm_iff_empty htokens hvalues, ?_⟩
  intro head hread hform
  obtain ⟨hne, hequals⟩ := Body.ofLines_form_iff.mp hform
  obtain ⟨parts, hparts⟩ := Body.exists_forall₂_cuts hequals
  obtain ⟨fields, hlines, hfields⟩ :=
    Table.ofLines_map_substitute_of_cuts htokens hvalues hne hparts
  have hgives := givesForm_iff.mpr ⟨head, hread, hlines⟩
  exact ⟨parts, fields, hparts, hfields, hlines, hgives⟩

/-- Two names that become one, and a value that becomes a directive. -/
theorem givesForm_resolve_sameName :
    let document := ["# $k = key".toList]
    let block := ["# :v = !content(x)".toList, "POST h".toList, "$k=1".toList, "a=:v".toList,
      "key=2".toList]
    (Table.resolve document block).ValuesAvoid '=' ∧ ∃ parts fields,
      List.Forall₂ Cuts ["$k=1".toList, "a=:v".toList, "key=2".toList] parts ∧
      LastWins (parts.map fun (name, value) =>
        ((Table.resolve document block).substitute name,
          FieldValue.ofText ((Table.resolve document block).substitute value))) fields ∧
      GivesForm (Table.resolve document block) block fields := by
  intro document block
  have hvalues : (Table.resolve document block).ValuesAvoid '=' := by
    unfold Table.ValuesAvoid
    decide
  have hread : Head.ofBlock Table.empty block =
      .ok { method := .post, url := ['h'], headers := []
            bodyLines := ["$k=1".toList, "a=:v".toList, "key=2".toList] } := by
    decide +kernel
  obtain ⟨parts, fields, hparts, hfields, -, hform⟩ :=
    ((givesForm_resolve document block).2 hvalues).2 _ hread ⟨_, rfl⟩
  exact ⟨hvalues, parts, fields, hparts, hfields, hform⟩

-- a value with an equals sign makes a form of a line that is none as it is written
example :
    let block := ["# :v = a=b".toList, "POST h".toList, ":v".toList]
    (ofBlock Table.empty block).map (·.body) = .ok (.raw ":v".toList) ∧
      (ofBlock (Table.resolve [] block) block).map (·.body) =
        .ok (.form [(['a'], .literal ['b'])]) := by
  decide +kernel

end Request

end PlainRequest
