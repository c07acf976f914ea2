/-
# PlainRequest.Proofs.Variable.Declaration — what declared tokens and values look like

A token that a line declares is the marker of its scope and a name behind it. The name is as long as it
can be, so it holds no character that ends one: no white space, no `=`, no marker. A value stays within
one line. Setting and overlaying write the tokens and values of declarations and no others, so those of a
resolved table are of this kind.
-/

import PlainRequest.Proofs.Keyed
import PlainRequest.Variable.Declaration
import Mathlib.Data.List.TakeWhile

namespace PlainRequest

open Text

namespace Declaration

/-- **`IsToken scope token`** — the marker of the scope, and a name of at least one character behind
it. -/
def IsToken (scope : Scope) (token : Text) : Prop :=
  ∃ name, token = scope.marker :: name ∧ name ≠ [] ∧ ∀ c ∈ name, isNameChar scope c = true

theorem newline_notMem_of_value? {afterEquals value : Text} (h : value? afterEquals = some value) :
    '\n' ∉ value := by
  unfold value? at h
  extract_lets candidate at h
  split at h
  · cases h
  · next hone =>
      obtain rfl := Option.some.inj h
      simp only [Bool.or_eq_true, not_or, List.contains_iff_mem] at hone
      exact hone.2

/-- What stands behind a marker: the longest name, white space, an `=`, and a value. -/
theorem nameAndValue?_eq_some_iff {scope : Scope} {text name value : Text} :
    nameAndValue? scope text = some (name, value) ↔ ∃ behind,
      text.takeWhile (isNameChar scope) = name ∧ name ≠ [] ∧
      trimStart (text.dropWhile (isNameChar scope)) = '=' :: behind ∧ value? behind = some value := by
  constructor
  · intro h
    obtain ⟨behind, hequals, hrest⟩ := Option.bind_eq_some_iff.mp h
    obtain ⟨found, hvalue, hfound⟩ := Option.bind_eq_some_iff.mp hrest
    split at hfound
    · cases hfound
    · next hne =>
        obtain ⟨rfl, rfl⟩ := Prod.mk.inj (Option.some.inj hfound)
        exact ⟨behind, rfl, by simpa using hne, stripPrefix?_eq_some_iff.mp hequals, hvalue⟩
  · rintro ⟨behind, rfl, hne, hequals, hvalue⟩
    have hopen : stripPrefix? ['='] (trimStart (text.dropWhile (isNameChar scope))) = some behind :=
      stripPrefix?_eq_some_iff.mpr hequals
    simp [nameAndValue?, hopen, hvalue, hne]

theorem nameAndValue?_name {scope : Scope} {text name value : Text}
    (h : nameAndValue? scope text = some (name, value)) :
    name ≠ [] ∧ ∀ c ∈ name, isNameChar scope c = true := by
  obtain ⟨_, rfl, hne, -, -⟩ := nameAndValue?_eq_some_iff.mp h
  exact ⟨hne, fun c hc => List.mem_takeWhile_imp hc⟩

/-- **What a declaration is read from**: the hash, at most one space, the marker of its scope, and behind
that a name and a value. -/
theorem of_ofLine? {scope : Scope} {line : Text} {declaration : Declaration}
    (h : ofLine? scope line = some declaration) :
    ∃ afterHash afterMarker name value, line = '#' :: afterHash ∧
      dropSpace afterHash = scope.marker :: afterMarker ∧
      nameAndValue? scope afterMarker = some (name, value) ∧
      declaration = ⟨scope, scope.marker :: name, value⟩ := by
  unfold ofLine? at h
  obtain ⟨afterHash, hhash, hrest⟩ := Option.bind_eq_some_iff.mp h
  obtain ⟨afterMarker, hmarker, hbehind⟩ := Option.bind_eq_some_iff.mp hrest
  obtain ⟨⟨name, value⟩, hread, heq⟩ := Option.bind_eq_some_iff.mp hbehind
  refine ⟨afterHash, afterMarker, name, value, ?_, ?_, hread, (Option.some.inj heq).symm⟩
  · exact stripPrefix?_eq_some_iff.mp hhash
  · exact stripPrefix?_eq_some_iff.mp hmarker

theorem isToken_of_ofLine? {scope : Scope} {line : Text} {declaration : Declaration}
    (h : ofLine? scope line = some declaration) :
    declaration.scope = scope ∧ IsToken scope declaration.token := by
  obtain ⟨_, _, name, value, -, -, hread, rfl⟩ := of_ofLine? h
  obtain ⟨hne, hchars⟩ := nameAndValue?_name hread
  exact ⟨rfl, name, rfl, hne, hchars⟩

/-- A declared value has no line feed. -/
theorem newline_notMem_of_ofLine? {scope : Scope} {line : Text} {declaration : Declaration}
    (h : ofLine? scope line = some declaration) : '\n' ∉ declaration.value := by
  obtain ⟨_, _, name, value, -, -, hread, rfl⟩ := of_ofLine? h
  obtain ⟨_, -, -, -, hvalue⟩ := nameAndValue?_eq_some_iff.mp hread
  exact newline_notMem_of_value? hvalue

theorem marker_ne {scope other : Scope} (h : scope ≠ other) : scope.marker ≠ other.marker := by
  revert h
  cases scope <;> cases other <;> decide

/-- **No line declares in two scopes**, since their markers differ. -/
theorem ofLine?_eq_none_of_ne {scope other : Scope} (hne : scope ≠ other) {line : Text}
    {declaration : Declaration} (h : ofLine? scope line = some declaration) :
    ofLine? other line = none := by
  cases hother : ofLine? other line with
  | none => rfl
  | some declaration' =>
      obtain ⟨afterHash, _, _, _, hline, hmarker, -⟩ := of_ofLine? h
      obtain ⟨afterHash', _, _, _, hline', hmarker', -⟩ := of_ofLine? hother
      obtain ⟨-, rfl⟩ := List.cons.inj (hline.symm.trans hline')
      obtain ⟨hsame, -⟩ := List.cons.inj (hmarker.symm.trans hmarker')
      exact absurd hsame (marker_ne hne)

/-- A token holds no `=`. -/
theorem IsToken.equals_notMem {scope : Scope} {token : Text} (h : IsToken scope token) :
    '=' ∉ token := by
  obtain ⟨name, rfl, -, hchars⟩ := h
  rw [List.mem_cons, not_or]
  constructor
  · cases scope <;> decide
  · intro hmem
    have hchar := hchars '=' hmem
    cases scope <;> exact absurd hchar (by decide)

end Declaration

namespace Table

open Declaration

theorem of_mem_ofDeclarations {declarations : List Declaration} {entry : Text × Text}
    (h : entry ∈ (ofDeclarations declarations).entries) :
    ∃ declaration ∈ declarations, (declaration.token, declaration.value) = entry := by
  rcases Keyed.of_mem_putAll h with hmem | hmem
  · exact List.mem_map.mp hmem
  · cases hmem

/-- **Every entry of a resolved table is declared**: in the document for all of it, or in the block for
itself. -/
theorem of_mem_resolve {document block : List Text} {entry : Text × Text}
    (h : entry ∈ (resolve document block).entries) :
    ∃ scope line declaration, line ∈ document ++ block ∧
      ofLine? scope line = some declaration ∧ (declaration.token, declaration.value) = entry := by
  have hcollected : ∀ {scope : Scope} {lines : List Text}, lines ⊆ document ++ block →
      (∃ declaration ∈ collect scope lines, (declaration.token, declaration.value) = entry) →
      ∃ scope line declaration, line ∈ document ++ block ∧
        ofLine? scope line = some declaration ∧
          (declaration.token, declaration.value) = entry := by
    rintro scope lines hlines ⟨declaration, hmem, hentry⟩
    obtain ⟨line, hline, hread⟩ := List.mem_filterMap.mp hmem
    exact ⟨scope, line, declaration, hlines hline, hread, hentry⟩
  rcases Keyed.of_mem_putAll h with hblock | hdocument
  · exact hcollected (List.subset_append_right _ _) (of_mem_ofDeclarations hblock)
  · exact hcollected (List.subset_append_left _ _) (of_mem_ofDeclarations hdocument)

theorem isToken_of_mem_resolve {document block : List Text} {entry : Text × Text}
    (h : entry ∈ (resolve document block).entries) : ∃ scope, IsToken scope entry.1 := by
  obtain ⟨scope, line, declaration, -, hread, rfl⟩ := of_mem_resolve h
  exact ⟨scope, (isToken_of_ofLine? hread).2⟩

/-- A value stays within one line. -/
theorem newline_notMem_of_mem_resolve {document block : List Text} {entry : Text × Text}
    (h : entry ∈ (resolve document block).entries) : '\n' ∉ entry.2 := by
  obtain ⟨scope, line, declaration, -, hread, rfl⟩ := of_mem_resolve h
  exact newline_notMem_of_ofLine? hread

end Table

end PlainRequest
