/-
# PlainRequest.Text — texts and the cuts that readers make

A text is a list of characters. Every reader of this library is a recursion on that list, so a
statement about a reader is an induction on what it reads. Here are the cuts the readers share: at
the first occurrence of a character, at every occurrence, after a given opening, before a given
ending; and the joins that undo them.
-/

namespace PlainRequest

/-- A text: its characters in reading order. -/
abbrev Text := List Char

namespace Text

/-! ## Cutting at a character -/

/-- Cut at the first `separator`, which belongs to neither part; nothing when there is none. -/
def splitFirst? (separator : Char) : Text → Option (Text × Text)
  | [] => none
  | c :: rest =>
      if c = separator then some ([], rest)
      else (splitFirst? separator rest).map fun (before, after) => (c :: before, after)

/-- Put `c` in front of the first piece. -/
def extendFirst (c : Char) : List Text → List Text
  | [] => [[c]]
  | piece :: pieces => (c :: piece) :: pieces

/-- Cut at every `separator`. A text with `n` separators has `n + 1` pieces, some perhaps empty. -/
def splitAll (separator : Char) : Text → List Text
  | [] => [[]]
  | c :: rest =>
      if c = separator then [] :: splitAll separator rest
      else extendFirst c (splitAll separator rest)

/-- Put `separator` between the pieces. -/
def joinWith (separator : Text) : List Text → Text
  | [] => []
  | [piece] => piece
  | piece :: pieces => piece ++ separator ++ joinWith separator pieces

/-! ## Openings and endings -/

/-- What follows `opening`, for a text that starts with it. -/
def stripPrefix? : Text → Text → Option Text
  | [], text => some text
  | _ :: _, [] => none
  | p :: opening, c :: text => if p = c then stripPrefix? opening text else none

/-- What precedes `ending`, for a text that ends with it. -/
def stripSuffix? (ending text : Text) : Option Text :=
  (stripPrefix? ending.reverse text.reverse).map List.reverse

/-- Does the text start with `opening`? -/
def startsWith (opening text : Text) : Bool := (stripPrefix? opening text).isSome

/-- Does the text end with `ending`? -/
def endsWith (ending text : Text) : Bool := (stripSuffix? ending text).isSome

/-! ## Lines -/

/-- Drop one carriage return at the end. -/
def dropReturn (line : Text) : Text :=
  if line.getLast? = some '\r' then line.dropLast else line

/-- The lines of a text. A line ends at a line feed, with a carriage return just before it
belonging to the line end. What follows the last line feed is a line of its own unless it is
empty, and keeps a carriage return at its end. -/
def lines (text : Text) : List Text :=
  let pieces := splitAll '\n' text
  pieces.dropLast.map dropReturn ++ pieces.getLast?.toList.filter (! ·.isEmpty)

/-- Each line followed by a line feed. -/
def unlines (lines : List Text) : Text := lines.flatMap (· ++ ['\n'])

/-! ## Letter case -/

/-- The text with the letters `A` to `Z` in lower case and all else as it was. -/
def lower (text : Text) : Text := text.map Char.toLower

/-- Do two texts agree when the case of `A` to `Z` is disregarded? -/
def agreeIgnoringCase (a b : Text) : Bool := lower a == lower b

theorem toLower_toLower (c : Char) : c.toLower.toLower = c.toLower := by
  by_cases h : c.val ≥ 'A'.val ∧ c.val ≤ 'Z'.val
  · have hlow : c.toLower = ⟨c.val + 32, _⟩ := dif_pos h
    have hnot : ¬ (c.toLower.val ≥ 'A'.val ∧ c.toLower.val ≤ 'Z'.val) := by
      rw [hlow]
      simp only [ge_iff_le, UInt32.le_iff_toNat_le, UInt32.toNat_add, Char.reduceVal,
        UInt32.reduceToNat] at h ⊢
      omega
    exact dif_neg hnot
  · have hsame : c.toLower = c := dif_neg h
    rw [hsame, hsame]

@[simp] theorem lower_lower (text : Text) : lower (lower text) = lower text := by
  rw [lower, lower, List.map_map]
  exact List.map_congr_left fun c _ => toLower_toLower c

/-! ## Laws of cutting and joining -/

@[simp] theorem splitAll_ne_nil (separator : Char) (text : Text) :
    splitAll separator text ≠ [] := by
  cases text with
  | nil => simp [splitAll]
  | cons c rest =>
      simp only [splitAll]
      split
      · simp
      · cases splitAll separator rest <;> simp [extendFirst]

theorem joinWith_cons {separator piece : Text} {pieces : List Text} (h : pieces ≠ []) :
    joinWith separator (piece :: pieces) = piece ++ separator ++ joinWith separator pieces := by
  cases pieces with
  | nil => exact absurd rfl h
  | cons q qs => rfl

theorem joinWith_extendFirst (separator : Text) (c : Char) (pieces : List Text) :
    joinWith separator (extendFirst c pieces) = c :: joinWith separator pieces := by
  match pieces with
  | [] => rfl
  | [_] => rfl
  | _ :: _ :: _ => simp [extendFirst, joinWith]

/-- Cutting at every separator loses nothing. -/
theorem joinWith_splitAll (separator : Char) (text : Text) :
    joinWith [separator] (splitAll separator text) = text := by
  induction text with
  | nil => rfl
  | cons c rest ih =>
      simp only [splitAll]
      split
      · next h =>
          rw [joinWith_cons (splitAll_ne_nil separator rest), ih, h]
          rfl
      · rw [joinWith_extendFirst, ih]

theorem splitFirst?_eq_some {separator : Char} {text before after : Text}
    (h : splitFirst? separator text = some (before, after)) :
    text = before ++ separator :: after ∧ separator ∉ before := by
  induction text generalizing before with
  | nil => simp [splitFirst?] at h
  | cons c rest ih =>
      simp only [splitFirst?] at h
      split at h
      · next hc => simp_all
      · next hc =>
          obtain ⟨⟨b, a⟩, hrest, heq⟩ := Option.map_eq_some_iff.mp h
          simp only [Prod.mk.injEq] at heq
          obtain ⟨rfl, rfl⟩ := heq
          obtain ⟨htext, hnot⟩ := ih hrest
          exact ⟨by simp [htext], by simp [hnot, Ne.symm hc]⟩

@[simp] theorem stripPrefix?_append (opening text : Text) :
    stripPrefix? opening (opening ++ text) = some text := by
  induction opening with
  | nil => cases text <;> rfl
  | cons p ps ih => simp [stripPrefix?, ih]

theorem stripPrefix?_eq_some_iff {opening text rest : Text} :
    stripPrefix? opening text = some rest ↔ text = opening ++ rest := by
  constructor
  · intro h
    induction opening generalizing text with
    | nil => cases text <;> simp_all [stripPrefix?]
    | cons p ps ih =>
        cases text with
        | nil => simp [stripPrefix?] at h
        | cons c cs =>
            simp only [stripPrefix?] at h
            split at h
            · next hpc => simp [hpc, ih h]
            · simp at h
  · rintro rfl
    exact stripPrefix?_append opening rest

theorem stripSuffix?_eq_some_iff {ending text front : Text} :
    stripSuffix? ending text = some front ↔ text = front ++ ending := by
  simp only [stripSuffix?, Option.map_eq_some_iff, stripPrefix?_eq_some_iff]
  constructor
  · rintro ⟨rev, hrev, rfl⟩
    have := congrArg List.reverse hrev
    simpa using this
  · rintro rfl
    exact ⟨front.reverse, by simp, by simp⟩

/-! ## Lengths -/

/-- Dropping characters leaves no more than there were. -/
theorem length_dropWhile_le (p : Char → Bool) (text : Text) :
    (text.dropWhile p).length ≤ text.length := by
  induction text with
  | nil => simp
  | cons c rest ih =>
      simp only [List.dropWhile_cons]
      split
      · exact Nat.le_succ_of_le ih
      · exact Nat.le_refl _

/-- Nor does dropping an opening. -/
theorem length_stripPrefix? {opening text rest : Text}
    (h : stripPrefix? opening text = some rest) : rest.length ≤ text.length := by
  rw [stripPrefix?_eq_some_iff.mp h]
  simp

end Text

end PlainRequest
