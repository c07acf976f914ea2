/-
# PlainRequest.Proofs.Request.Forms — which lines are a form, and what its fields are

Lines are a form if there is one and every one has an `=`. If not, they are raw text, and the text is cut
into the same lines again. If they are, each line is cut at its first `=`, and what the form has is fixed by
the cuts: the names in the order of their first line, and with each name what its last line says. So is what
is found under a name.
-/

import PlainRequest.Proofs.Request.Classification
import PlainRequest.Proofs.Request.Fields

namespace PlainRequest.Body

open Text Keyed

/-- Lines that are no form are raw text: there is none, or one of them has no `=`. -/
theorem ofLines_of_not_form {lines : List Text} (h : ¬ (lines ≠ [] ∧ ∀ line ∈ lines, '=' ∈ line)) :
    ofLines lines = .raw (joinWith ['\n'] lines) := by
  by_cases hempty : lines = []
  · rw [hempty]
    rfl
  · apply ofLines_of_notMem
    simpa [hempty] using h

/-- **No line is lost**: raw text is cut into the lines it was made from. -/
theorem splitAll_of_ofLines {lines : List Text} {text : Text} (h : ofLines lines = .raw text)
    (hne : lines ≠ []) (hlines : ∀ line ∈ lines, '\n' ∉ line) : splitAll '\n' text = lines := by
  have hnot : ¬ (lines ≠ [] ∧ ∀ line ∈ lines, '=' ∈ line) := by
    rw [← ofLines_form_iff]
    rintro ⟨fields, hform⟩
    rw [h] at hform
    cases hform
  rw [ofLines_of_not_form hnot] at h
  obtain rfl := Body.raw.inj h
  exact splitAll_joinWith hne hlines

/-- What is found under a name, by the cuts of the lines. -/
theorem field?_fieldsOf (name : Text) (parts : List (Text × Text)) :
    field? name (.form (fieldsOf parts)) = (last? name parts).map FieldValue.ofText := by
  show get? name (fieldsOf parts) = _
  rw [fieldsOf, (lastWins_putAll _).get?_eq, last?_mapValues]

/-- **What lines are.** They are a form if and only if there is a line and every line has an `=`; if not,
they are the raw text that they give with a line feed between any two of them, and if no line has one
itself, the text is cut into the same lines again. A form has the names that stand in front of the first `=`
of a line, each once and in the order of their first line, and each name has the value that the text behind
the first `=` of its last line is read as. That value is what is found under the name, and under any other
name nothing is found. -/
theorem ofLines_exact (lines : List Text) :
    ((∃ fields, ofLines lines = .form fields) ↔ lines ≠ [] ∧ ∀ line ∈ lines, '=' ∈ line) ∧
    (¬ (lines ≠ [] ∧ ∀ line ∈ lines, '=' ∈ line) →
      ofLines lines = .raw (joinWith ['\n'] lines)) ∧
    (∀ text, ofLines lines = .raw text → lines ≠ [] → (∀ line ∈ lines, '\n' ∉ line) →
      splitAll '\n' text = lines) ∧
    ∀ fields, ofLines lines = .form fields → ∃ parts, List.Forall₂ Cuts lines parts ∧
      LastWins (mapValues FieldValue.ofText parts) fields ∧
      (∀ name value, field? name (ofLines lines) = some value ↔
        ∃ before text after, parts = before ++ (name, text) :: after ∧
          name ∉ after.map Prod.fst ∧ value = FieldValue.ofText text) ∧
      ∀ name, field? name (ofLines lines) = none ↔ name ∉ parts.map Prod.fst := by
  refine ⟨ofLines_form_iff, ofLines_of_not_form, fun text => splitAll_of_ofLines, ?_⟩
  intro fields hform
  obtain ⟨hne, hequals⟩ := ofLines_form_iff.mp ⟨fields, hform⟩
  obtain ⟨parts, hparts⟩ := exists_forall₂_cuts hequals
  rw [ofLines_of_cuts hne hparts] at hform ⊢
  obtain rfl := Body.form.inj hform
  refine ⟨parts, hparts, lastWins_putAll _, ?_, ?_⟩
  · intro name value
    rw [field?_fieldsOf, Option.map_eq_some_iff]
    constructor
    · rintro ⟨text, htext, rfl⟩
      obtain ⟨before, after, hwhere, hafter⟩ := last?_eq_some_iff.mp htext
      exact ⟨before, text, after, hwhere, hafter, rfl⟩
    · rintro ⟨before, text, after, hwhere, hafter, rfl⟩
      exact ⟨text, last?_eq_some_iff.mpr ⟨before, after, hwhere, hafter⟩, rfl⟩
  · intro name
    rw [field?_fieldsOf, Option.map_eq_none_iff, last?_eq_none_iff]

/-- An empty name, and a name whose second line makes an attachment of it. -/
theorem ofLines_exact_repeated :
    let lines := ["a=1".toList, "=b=c".toList, "a=!content(x=y)".toList]
    let fields := [(['a'], .content "x=y".toList), ([], .literal "b=c".toList)]
    ofLines lines = .form fields ∧ ∃ parts, List.Forall₂ Cuts lines parts ∧
      LastWins (mapValues FieldValue.ofText parts) fields ∧ ['b'] ∉ parts.map Prod.fst := by
  intro lines fields
  have hform : ofLines lines = .form fields := by decide +kernel
  obtain ⟨-, -, -, hfields⟩ := ofLines_exact lines
  obtain ⟨parts, hparts, hlast, -, hnone⟩ := hfields fields hform
  have hother : field? ['b'] (ofLines lines) = none := by decide +kernel
  exact ⟨hform, parts, hparts, hlast, (hnone ['b']).mp hother⟩

end PlainRequest.Body
