/-
# PlainRequest.Proofs.Line — lines that count, request lines and header lines

Which lines of a block count is decided line by line, so it is known of lines that are put together.
A request line is a method name, one space and a target, and is read as nothing else.
A header line has a colon, so it is not blank, and its name is how the line begins, so a name that
opens a comment never comes from a line that counts.
-/

import PlainRequest.Line

namespace PlainRequest.Line

open Text

/-! ## Lines that count -/

theorem significant_append (lines more : List Text) :
    significant (lines ++ more) = significant lines ++ significant more :=
  List.filter_append ..

theorem significant_eq_self {lines : List Text}
    (h : ∀ line ∈ lines, isComment line = false ∧ isBlank line = false) :
    significant lines = lines := by
  unfold significant
  rw [List.filter_eq_self]
  intro line hline
  obtain ⟨hcomment, hblank⟩ := h line hline
  rw [hcomment, hblank]
  rfl

/-- A text with a character that is no white space is not blank. -/
theorem not_blank_of_mem {text : Text} {c : Char} (hc : c ∈ text) (hspace : isSpace c = false) :
    isBlank text = false := by
  rw [isBlank, List.all_eq_false]
  exact ⟨c, hc, by simp [hspace]⟩

/-! ## Request lines -/

/-- **A line is a request line** exactly when it is a method name, one space and the target. -/
theorem request?_eq_some_iff {line target : Text} {method : Method} :
    request? line = some (method, target) ↔ line = ofRequest method target := by
  constructor
  · intro h
    obtain ⟨⟨name, rest⟩, hsplit, hrest⟩ := Option.bind_eq_some_iff.mp h
    obtain ⟨found, hfound, heq⟩ := Option.bind_eq_some_iff.mp hrest
    obtain ⟨rfl, rfl⟩ := Prod.mk.inj (Option.some.inj heq)
    obtain ⟨hline, -⟩ := splitFirst?_eq_some hsplit
    have hname : name = found.name := Method.ofName?_eq_some_iff.mp hfound
    rw [hline, hname, ofRequest, List.append_assoc]
    rfl
  · rintro rfl
    exact request?_ofRequest method target

theorem request?_eq_none_iff {line : Text} :
    request? line = none ↔ ∀ method target, line ≠ ofRequest method target := by
  constructor
  · intro hnone method target heq
    rw [request?_eq_some_iff.mpr heq] at hnone
    simp at hnone
  · intro hall
    rw [Option.eq_none_iff_forall_ne_some]
    rintro ⟨method, target⟩ hsome
    exact hall method target (request?_eq_some_iff.mp hsome)

/-! ## Header lines -/

theorem ne_nil_of_isHeaderName {name : Text} (h : isHeaderName name = true) : name ≠ [] := by
  rintro rfl
  exact absurd h (by decide)

/-- **A line is a header line** exactly when it is a header name, a colon, and a text that gives the
value without the white space it starts with. -/
theorem header?_eq_some_iff {line name value : Text} :
    header? line = some (name, value) ↔ ∃ behind, line = name ++ ':' :: behind ∧
      isHeaderName name = true ∧ value = trimStart behind := by
  constructor
  · intro h
    obtain ⟨⟨before, behind⟩, hsplit, hrest⟩ := Option.bind_eq_some_iff.mp h
    dsimp only at hrest
    split at hrest
    · next hname =>
        obtain ⟨rfl, rfl⟩ := Prod.mk.inj (Option.some.inj hrest)
        exact ⟨behind, (splitFirst?_eq_some hsplit).1, hname, rfl⟩
    · cases hrest
  · rintro ⟨behind, rfl, hname, rfl⟩
    rw [header?, splitFirst?_append (colon_notMem_of_isHeaderName hname)]
    exact if_pos hname

/-- A header line that is no comment has a name that opens none. -/
theorem of_header? {line name value : Text} (h : header? line = some (name, value)) :
    isHeaderName name = true ∧ (isComment line = false → name.head? ≠ some '#') := by
  obtain ⟨behind, rfl, hname, -⟩ := header?_eq_some_iff.mp h
  refine ⟨hname, ?_⟩
  intro hcomment hhead
  cases name with
  | nil => exact ne_nil_of_isHeaderName hname rfl
  | cons c rest =>
      obtain rfl : c = '#' := by simpa using hhead
      simp [isComment] at hcomment

/-- A header line is its name, a colon, and behind it the value, perhaps with a gap before it. -/
theorem exists_gap_of_header? {line name value : Text} (h : header? line = some (name, value)) :
    ∃ gap, line = name ++ ':' :: (gap ++ value) := by
  obtain ⟨behind, rfl, -, rfl⟩ := header?_eq_some_iff.mp h
  exact ⟨behind.takeWhile isSpace, by rw [trimStart, List.takeWhile_append_dropWhile]⟩

/-- A header line is not blank: it has a colon. -/
theorem not_blank_of_header? {line name value : Text} (h : header? line = some (name, value)) :
    isBlank line = false := by
  obtain ⟨gap, rfl⟩ := exists_gap_of_header? h
  exact not_blank_of_mem (c := ':') (by simp) (by decide)

/-! ## Values -/

/-- A text that does not begin with white space is not shortened at the front. -/
theorem trimStart_eq_self {text : Text} (h : ∀ c ∈ text.head?, isSpace c = false) :
    trimStart text = text := by
  cases text with
  | nil => rfl
  | cons c rest => exact trimStart_of_head (h c rfl)

end PlainRequest.Line
