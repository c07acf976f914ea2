/-
# PlainRequest.Proofs.Variable.Grammar — which lines declare a variable

A declaration is a hash, perhaps one space, the marker of its scope, a name, an `=` with white space on
both sides, and a value. Everything up to the `=` can be read in one way only. Behind it there is a
choice: white space belongs to the gap or to the value, and the value needs a character. The gap takes as
much as it can. So a value begins with white space only if nothing else is there, and is then the last
character.
-/

import PlainRequest.Proofs.Text.Cutting
import PlainRequest.Proofs.Text.Trimming
import PlainRequest.Proofs.Variable.Declaration

namespace PlainRequest.Declaration

open Text

/-! ## Up to the equals sign -/

/-- **`Opens scope line name behind`** — the line is a hash, at most one space, the marker of the scope,
the name, white space and an `=`, and `behind` is what stands behind the `=`. The name has at least one
character, and none of it is the marker, white space or an `=`. -/
structure Opens (scope : Scope) (line name behind : Text) : Prop where
  spelled : ∃ space before, (space = [] ∨ space = [' ']) ∧ isBlank before = true ∧
    line = '#' :: (space ++ scope.marker :: (name ++ (before ++ '=' :: behind)))
  nonempty : name ≠ []
  chars : ∀ c ∈ name, c ≠ scope.marker ∧ isSpace c = false ∧ c ≠ '='

theorem isNameChar_iff {scope : Scope} {c : Char} :
    isNameChar scope c = true ↔ c ≠ scope.marker ∧ isSpace c = false ∧ c ≠ '=' := by
  simp only [isNameChar, Bool.and_eq_true, Bool.not_eq_true', decide_eq_true_eq, and_assoc]

theorem dropSpace_append {scope : Scope} {space : Text} (h : space = [] ∨ space = [' '])
    (rest : Text) : dropSpace (space ++ scope.marker :: rest) = scope.marker :: rest := by
  rcases h with rfl | rfl
  · cases scope <;> rfl
  · rfl

theorem exists_space_of_dropSpace (text : Text) :
    ∃ space, (space = [] ∨ space = [' ']) ∧ text = space ++ dropSpace text := by
  unfold dropSpace
  split
  · exact ⟨[' '], .inr rfl, rfl⟩
  · exact ⟨[], .inl rfl, rfl⟩

/-- A name ends where white space or the `=` begins. -/
theorem not_isNameChar_of_head (scope : Scope) {before : Text} (h : isBlank before = true)
    (behind : Text) : ∀ c ∈ (before ++ '=' :: behind).head?, isNameChar scope c = false := by
  intro c hc
  rw [← Bool.not_eq_true, isNameChar_iff]
  rintro ⟨-, hspace, hequals⟩
  cases before with
  | nil => exact hequals (Option.some.inj hc).symm
  | cons first rest =>
      obtain rfl : first = c := Option.some.inj hc
      rw [isBlank, List.all_cons, Bool.and_eq_true] at h
      rw [h.1] at hspace
      cases hspace

/-- **Up to the `=` there is one way to read a line**: the name is as long as it can be, and then comes
white space. -/
theorem opens_iff {scope : Scope} {line name behind : Text} :
    Opens scope line name behind ↔ ∃ afterHash afterMarker, line = '#' :: afterHash ∧
      dropSpace afterHash = scope.marker :: afterMarker ∧
      afterMarker.takeWhile (isNameChar scope) = name ∧ name ≠ [] ∧
      trimStart (afterMarker.dropWhile (isNameChar scope)) = '=' :: behind := by
  constructor
  · rintro ⟨⟨space, before, hspace, hbefore, rfl⟩, hne, hchars⟩
    have hname : ∀ c ∈ name, isNameChar scope c = true := fun c hc => isNameChar_iff.mpr (hchars c hc)
    have hhead := not_isNameChar_of_head scope hbefore behind
    obtain ⟨htake, hdrop⟩ := takeWhile_append_of_head hhead name
    refine ⟨_, _, rfl, dropSpace_append hspace _, ?_, hne, ?_⟩
    · rw [htake, List.takeWhile_eq_self_iff]
      exact hname
    · rw [hdrop, List.dropWhile_eq_nil_iff.mpr hname, List.nil_append,
        trimStart_append_of_blank hbefore]
      exact trimStart_of_head (by decide)
  · rintro ⟨afterHash, afterMarker, rfl, hmarker, rfl, hne, hequals⟩
    obtain ⟨space, hspace, hafter⟩ := exists_space_of_dropSpace afterHash
    obtain ⟨before, hbefore, hrest⟩ :=
      exists_front_trimStart (afterMarker.dropWhile (isNameChar scope))
    refine ⟨⟨space, before, hspace, hbefore, ?_⟩, hne, ?_⟩
    · rw [← hequals, ← hrest, List.takeWhile_append_dropWhile, ← hmarker, ← hafter]
    · intro c hc
      exact isNameChar_iff.mp (List.mem_takeWhile_imp hc)

theorem Opens.unique {scope : Scope} {line name name' behind behind' : Text}
    (h : Opens scope line name behind) (h' : Opens scope line name' behind') :
    name = name' ∧ behind = behind' := by
  obtain ⟨afterHash, afterMarker, hline, hmarker, rfl, -, hequals⟩ := opens_iff.mp h
  obtain ⟨afterHash', afterMarker', hline', hmarker', rfl, -, hequals'⟩ := opens_iff.mp h'
  obtain rfl : afterHash = afterHash' := (List.cons.inj (hline.symm.trans hline')).2
  obtain rfl : afterMarker = afterMarker' := (List.cons.inj (hmarker.symm.trans hmarker')).2
  exact ⟨rfl, (List.cons.inj (hequals.symm.trans hequals')).2⟩

/-- **What a line declares**: the name that it opens with, and the value behind the `=`. -/
theorem ofLine?_eq_some_iff {scope : Scope} {line : Text} {declaration : Declaration} :
    ofLine? scope line = some declaration ↔ ∃ name behind value, Opens scope line name behind ∧
      value? behind = some value ∧ declaration = ⟨scope, scope.marker :: name, value⟩ := by
  constructor
  · intro h
    obtain ⟨afterHash, afterMarker, name, value, hline, hmarker, hread, heq⟩ := of_ofLine? h
    obtain ⟨behind, htake, hne, hequals, hvalue⟩ := nameAndValue?_eq_some_iff.mp hread
    have hopens := opens_iff.mpr ⟨afterHash, afterMarker, hline, hmarker, htake, hne, hequals⟩
    exact ⟨name, behind, value, hopens, hvalue, heq⟩
  · rintro ⟨name, behind, value, hopens, hvalue, rfl⟩
    obtain ⟨afterHash, afterMarker, rfl, hmarker, htake, hne, hequals⟩ := opens_iff.mp hopens
    have hread := nameAndValue?_eq_some_iff.mpr ⟨behind, htake, hne, hequals, hvalue⟩
    simp [ofLine?, hmarker, hread, stripPrefix?]

/-! ## Behind the equals sign -/

/-- **`IsValue behind gap value`** — what stands behind the `=` is white space and a value, which is not
empty and stays within one line. -/
structure IsValue (behind gap value : Text) : Prop where
  parts : behind = gap ++ value
  blank : isBlank gap = true
  nonempty : value ≠ []
  oneLine : '\n' ∉ value

/-- **`BeginsValue behind value`** — the value begins with no white space, or nothing but white space is
there and the value is one character. -/
def BeginsValue (behind value : Text) : Prop :=
  (∃ c rest, value = c :: rest ∧ isSpace c = false) ∨ isBlank behind = true ∧ ∃ c, value = [c]

theorem value?_of_trimStart {behind rest : Text} {c : Char} (h : trimStart behind = c :: rest) :
    value? behind = if '\n' ∈ c :: rest then none else some (c :: rest) := by
  simp [value?, h]

theorem value?_of_blank {front : Text} {c : Char} (h : isBlank (front ++ [c]) = true) :
    value? (front ++ [c]) = if c = '\n' then none else some [c] := by
  have hnothing : trimStart (front ++ [c]) = [] := trimStart_eq_nil_iff.mpr h
  simp [value?, hnothing, eq_comm]

/-- **The value that is read** is one, and begins as it should. -/
theorem value?_eq_some_iff {behind value : Text} :
    value? behind = some value ↔ ∃ gap, IsValue behind gap value ∧ BeginsValue behind value := by
  constructor
  · intro h
    cases htrim : trimStart behind with
    | cons c rest =>
        rw [value?_of_trimStart htrim] at h
        split at h
        · cases h
        · next hline =>
            obtain rfl := Option.some.inj h
            obtain ⟨gap, hgap, hparts⟩ := exists_front_trimStart behind
            rw [htrim] at hparts
            have hfirst : isSpace c = false := head?_trimStart behind c (by rw [htrim]; rfl)
            exact ⟨gap, ⟨hparts, hgap, List.cons_ne_nil c rest, hline⟩, .inl ⟨c, rest, rfl, hfirst⟩⟩
    | nil =>
        have hblank : isBlank behind = true := trimStart_eq_nil_iff.mp htrim
        rcases List.eq_nil_or_concat behind with rfl | ⟨front, c, rfl⟩
        · cases h
        · rw [List.concat_eq_append] at hblank h ⊢
          rw [value?_of_blank hblank] at h
          split at h
          · cases h
          · next hline =>
              obtain rfl := Option.some.inj h
              have hfront : isBlank front = true := by
                rw [isBlank, List.all_append, Bool.and_eq_true] at hblank
                exact hblank.1
              refine ⟨front, ⟨rfl, hfront, List.cons_ne_nil c [], ?_⟩, .inr ⟨hblank, c, rfl⟩⟩
              simpa [eq_comm] using hline
  · rintro ⟨gap, ⟨rfl, hgap, hne, hline⟩, ⟨c, rest, rfl, hfirst⟩ | ⟨hblank, c, rfl⟩⟩
    · have htrim : trimStart (gap ++ c :: rest) = c :: rest := by
        rw [trimStart_append_of_blank hgap, trimStart_of_head hfirst]
      rw [value?_of_trimStart htrim, if_neg hline]
    · rw [value?_of_blank hblank, if_neg]
      simpa [eq_comm] using hline

/-- **Where a value can be read, one is.** -/
theorem IsValue.exists_value? {behind gap value : Text} (h : IsValue behind gap value) :
    ∃ found, value? behind = some found := by
  obtain ⟨rfl, hgap, hne, hline⟩ := h
  cases htrim : trimStart (gap ++ value) with
  | cons c rest =>
      rw [value?_of_trimStart htrim, if_neg]
      · exact ⟨_, rfl⟩
      · -- what is left begins within the value
        rw [trimStart_append_of_blank hgap] at htrim
        rw [← htrim]
        exact fun hmem => hline ((List.dropWhile_suffix _).subset hmem)
  | nil =>
      have hblank : isBlank (gap ++ value) = true := trimStart_eq_nil_iff.mp htrim
      rcases List.eq_nil_or_concat value with rfl | ⟨front, c, rfl⟩
      · exact absurd rfl hne
      · rw [List.concat_eq_append, ← List.append_assoc] at hblank ⊢
        rw [value?_of_blank hblank, if_neg]
        · exact ⟨_, rfl⟩
        · rintro rfl
          exact hline (by simp)

/-- **No gap is longer** than that before a value which begins as it should. -/
theorem IsValue.length_le {behind gap gap' value value' : Text} (h : IsValue behind gap value)
    (hbegins : BeginsValue behind value) (h' : IsValue behind gap' value') :
    gap'.length ≤ gap.length := by
  rcases hbegins with ⟨c, rest, rfl, hfirst⟩ | ⟨-, c, rfl⟩
  · rcases List.append_eq_append_iff.mp (h.parts.symm.trans h'.parts) with
      ⟨more, hgap, hrest⟩ | ⟨more, hgap, -⟩
    · cases more with
      | nil =>
          rw [hgap, List.append_nil]
      | cons d more =>
          -- the longer gap would hold a character that is no white space
          obtain rfl : c = d := (List.cons.inj hrest).1
          have hblank := h'.blank
          rw [hgap, isBlank, List.all_append, List.all_cons, hfirst] at hblank
          simp at hblank
    · rw [hgap, List.length_append]
      exact Nat.le_add_right _ _
  · have hlength := congrArg List.length (h.parts.symm.trans h'.parts)
    have hpos := List.length_pos_iff.mpr h'.nonempty
    rw [List.length_append, List.length_append, List.length_singleton] at hlength
    omega

/-! ## Declarations -/

/-- **`IsWritten scope line name gap value`** — the line is a hash, at most one space, the marker of the
scope, a name, white space, `=`, white space, and a value that is not empty and stays within one line. -/
structure IsWritten (scope : Scope) (line name gap value : Text) : Prop where
  opens : Opens scope line name (gap ++ value)
  isValue : IsValue (gap ++ value) gap value

/-- **`IsRead scope line name gap value`** — the same, and in no other way to write the line is there more
white space behind the `=`. -/
structure IsRead (scope : Scope) (line name gap value : Text) : Prop where
  written : IsWritten scope line name gap value
  longest : ∀ name' gap' value', IsWritten scope line name' gap' value' → gap'.length ≤ gap.length

/-- A written line is a declaration. -/
theorem IsWritten.exists_ofLine? {scope : Scope} {line name gap value : Text}
    (h : IsWritten scope line name gap value) : ∃ declaration, ofLine? scope line = some declaration := by
  obtain ⟨found, hfound⟩ := h.isValue.exists_value?
  exact ⟨_, ofLine?_eq_some_iff.mpr ⟨name, gap ++ value, found, h.opens, hfound, rfl⟩⟩

/-- **A declaration is written**, with the longest gap there is, and its value begins as it should. -/
theorem exists_isRead_of_ofLine? {scope : Scope} {line : Text} {declaration : Declaration}
    (h : ofLine? scope line = some declaration) : ∃ name gap value, IsRead scope line name gap value ∧
      BeginsValue (gap ++ value) value ∧ declaration = ⟨scope, scope.marker :: name, value⟩ := by
  obtain ⟨name, behind, value, hopens, hvalue, heq⟩ := ofLine?_eq_some_iff.mp h
  obtain ⟨gap, hisValue, hbegins⟩ := value?_eq_some_iff.mp hvalue
  obtain rfl := hisValue.parts
  refine ⟨name, gap, value, ⟨⟨hopens, hisValue⟩, ?_⟩, hbegins, heq⟩
  intro name' gap' value' hwritten
  obtain ⟨-, hbehind⟩ := hopens.unique hwritten.opens
  have hother : IsValue (gap ++ value) gap' value' := hbehind ▸ hwritten.isValue
  exact hisValue.length_le hbegins hother

/-- There is one way to read a line. -/
theorem IsRead.unique {scope : Scope} {line name name' gap gap' value value' : Text}
    (h : IsRead scope line name gap value) (h' : IsRead scope line name' gap' value') :
    name = name' ∧ gap = gap' ∧ value = value' := by
  obtain ⟨hname, hbehind⟩ := h.written.opens.unique h'.written.opens
  have hle := h.longest name' gap' value' h'.written
  have hge := h'.longest name gap value h.written
  exact ⟨hname, List.append_inj hbehind (by omega)⟩

/-- **What is read so is what the line declares.** -/
theorem IsRead.ofLine?_eq {scope : Scope} {line name gap value : Text}
    (h : IsRead scope line name gap value) :
    ofLine? scope line = some ⟨scope, scope.marker :: name, value⟩ ∧
      BeginsValue (gap ++ value) value := by
  obtain ⟨declaration, hdeclaration⟩ := h.written.exists_ofLine?
  obtain ⟨name', gap', value', h', hbegins, rfl⟩ := exists_isRead_of_ofLine? hdeclaration
  obtain ⟨rfl, rfl, rfl⟩ := h.unique h'
  exact ⟨hdeclaration, hbegins⟩

/-- **Declarations are recognised by their grammar.** A line declares a variable of a scope if and only if
it can be written as one: a hash, at most one space, the marker of the scope, a name without the marker,
white space and `=`, an `=` with any white space on both sides, and behind that a value within one line.
The token is the marker and the name. The value is the one for which there is most white space in front of
it: it begins with another character unless there is none, and is the last character then; it goes to the
end of the line. No line declares in two scopes. -/
theorem ofLine?_exact (scope : Scope) (line : Text) :
    ((∃ declaration, ofLine? scope line = some declaration) ↔
      ∃ name gap value, IsWritten scope line name gap value) ∧
    (∀ declaration, ofLine? scope line = some declaration ↔ ∃ name gap value,
      IsRead scope line name gap value ∧ declaration = ⟨scope, scope.marker :: name, value⟩) ∧
    (∀ name gap value, IsRead scope line name gap value → BeginsValue (gap ++ value) value) ∧
    ∀ other declaration, other ≠ scope → ofLine? scope line = some declaration →
      ofLine? other line = none := by
  refine ⟨⟨?_, ?_⟩, ?_, ?_, ?_⟩
  · rintro ⟨declaration, hdeclaration⟩
    obtain ⟨name, gap, value, h, -⟩ := exists_isRead_of_ofLine? hdeclaration
    exact ⟨name, gap, value, h.written⟩
  · rintro ⟨name, gap, value, h⟩
    exact h.exists_ofLine?
  · intro declaration
    constructor
    · intro hdeclaration
      obtain ⟨name, gap, value, h, -, heq⟩ := exists_isRead_of_ofLine? hdeclaration
      exact ⟨name, gap, value, h, heq⟩
    · rintro ⟨name, gap, value, h, rfl⟩
      exact h.ofLine?_eq.1
  · intro name gap value h
    exact h.ofLine?_eq.2
  · intro other declaration hne hdeclaration
    exact ofLine?_eq_none_of_ne (Ne.symm hne) hdeclaration

/-- A name that holds the other marker, and a value of white space. -/
theorem ofLine?_exact_blank :
    let line := "#:a$ = \u00a0 ".toList
    ofLine? .block line = some ⟨.block, ":a$".toList, [' ']⟩ ∧
      (∃ name gap value, IsRead .block line name gap value ∧ BeginsValue (gap ++ value) value) ∧
      ofLine? .document line = none := by
  intro line
  obtain ⟨-, hread, hbegins, hother⟩ := ofLine?_exact .block line
  have hline : ofLine? .block line = some ⟨.block, ":a$".toList, [' ']⟩ := by decide +kernel
  obtain ⟨name, gap, value, h, -⟩ := (hread _).mp hline
  refine ⟨hline, ⟨name, gap, value, h, hbegins name gap value h⟩, ?_⟩
  exact hother .document _ (by decide) hline

end PlainRequest.Declaration
