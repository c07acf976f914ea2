/-
# PlainRequest.Proofs.Shell.DoubleQuotes — what backslashes do between double quotes

A text with backslashes is taken apart from left to right: each backslash belongs to the character behind
it, and every other character stands alone. `signs?` does this without a look at what the text is for. Put
between double quotes, such a text is read as its characters without their backslashes if each backslash
stands before a character that it keeps and no double quote stands alone; and then the quotes close behind
the text, and nowhere in it. A text that is written with a backslash before every character of a class has
its own characters as signs, so all that can go wrong with it is the choice of the class.
-/

import PlainRequest.Shell.Words

namespace PlainRequest.Shell

open Text State

/-! ## Signs -/

/-- A character as it stands in a text with backslashes. -/
inductive Sign
  /-- The character stands alone. -/
  | lone (c : Char)
  /-- A backslash stands before the character. -/
  | marked (c : Char)
  deriving DecidableEq, Repr

/-- The character of a sign. -/
def Sign.char : Sign → Char
  | lone c | marked c => c

/-- **`signs? text`** — the signs of a text from left to right, every backslash with the character behind
it; none if the last backslash has no character behind it. -/
def signs? : Text → Option (List Sign)
  | [] => some []
  | c :: rest =>
      if c = '\\' then
        match rest with
        | [] => none
        | d :: behind => (signs? behind).map (.marked d :: ·)
      else (signs? rest).map (.lone c :: ·)

theorem signs?_marked (c : Char) (rest : Text) :
    signs? ('\\' :: c :: rest) = (signs? rest).map (.marked c :: ·) := by
  rw [signs?, if_pos rfl]

theorem signs?_lone {c : Char} (h : c ≠ '\\') (rest : Text) :
    signs? (c :: rest) = (signs? rest).map (.lone c :: ·) := by
  rw [signs?.eq_def]
  exact if_neg h

/-! ## Writing backslashes -/

/-- The text with a backslash before every character of a class. -/
def backslashed (p : Char → Bool) (text : Text) : Text :=
  text.flatMap fun c => if p c then ['\\', c] else [c]

/-- A character is marked if it is of the class, and stands alone if not. -/
def signOf (p : Char → Bool) (c : Char) : Sign := if p c then .marked c else .lone c

theorem char_signOf (p : Char → Bool) (c : Char) : (signOf p c).char = c := by
  unfold signOf
  split <;> rfl

/-- The text is what its signs are signs of. -/
theorem map_char_signOf (p : Char → Bool) (text : Text) :
    (text.map (signOf p)).map Sign.char = text := by
  rw [List.map_map]
  exact (List.map_congr_left fun c _ => char_signOf p c).trans (List.map_id text)

/-- **A text that is written with backslashes has its own characters as signs**, if backslashes get one
as well. -/
theorem signs?_backslashed {p : Char → Bool} (h : p '\\' = true) (text : Text) :
    signs? (backslashed p text) = some (text.map (signOf p)) := by
  induction text with
  | nil => rfl
  | cons c rest ih =>
      have hcons : backslashed p (c :: rest) =
          (if p c then ['\\', c] else [c]) ++ backslashed p rest := List.flatMap_cons
      rw [hcons, List.map_cons, signOf]
      by_cases hc : p c = true
      · rw [if_pos hc, if_pos hc, List.cons_append, List.singleton_append, signs?_marked, ih]
        rfl
      · have hne : c ≠ '\\' := fun heq => hc (heq ▸ h)
        rw [if_neg hc, if_neg hc, List.singleton_append, signs?_lone hne, ih]
        rfl

/-- A sign as it is written. -/
def Sign.text : Sign → Text
  | lone c => [c]
  | marked c => ['\\', c]

theorem eq_flatMap_of_signs? {text : Text} {signs : List Sign} (h : signs? text = some signs) :
    text = signs.flatMap Sign.text := by
  fun_induction signs? text generalizing signs with
  | case1 =>
      obtain rfl := Option.some.inj h
      rfl
  | case2 => cases h
  | case3 c text ih =>
      obtain ⟨others, hothers, rfl⟩ := Option.map_eq_some_iff.mp h
      rw [List.flatMap_cons, ← ih hothers]
      rfl
  | case4 c text hne ih =>
      obtain ⟨others, hothers, rfl⟩ := Option.map_eq_some_iff.mp h
      rw [List.flatMap_cons, ← ih hothers]
      rfl

/-- A backslash never stands alone. -/
theorem backslash_notMem_of_signs? {text : Text} {signs : List Sign} (h : signs? text = some signs) :
    .lone '\\' ∉ signs := by
  fun_induction signs? text generalizing signs with
  | case1 =>
      obtain rfl := Option.some.inj h
      exact List.not_mem_nil
  | case2 => cases h
  | case3 c text ih =>
      obtain ⟨others, hothers, rfl⟩ := Option.map_eq_some_iff.mp h
      simpa using ih hothers
  | case4 c text hne ih =>
      obtain ⟨others, hothers, rfl⟩ := Option.map_eq_some_iff.mp h
      simpa [Ne.symm hne] using ih hothers

theorem marked_mem_signs_iff {p : Char → Bool} {text : Text} {c : Char} :
    .marked c ∈ text.map (signOf p) ↔ c ∈ text ∧ p c = true := by
  simp only [List.mem_map, signOf]
  grind

theorem lone_mem_signs_iff {p : Char → Bool} {text : Text} {c : Char} :
    .lone c ∈ text.map (signOf p) ↔ c ∈ text ∧ p c = false := by
  simp only [List.mem_map, signOf]
  grind

/-- **The signs of a text with backslashes say how it was written**: marked are the characters of the
class, and those alone. -/
theorem eq_backslashed_iff {p : Char → Bool} (h : p '\\' = true) {written text : Text} :
    written = backslashed p text ↔ ∃ signs, signs? written = some signs ∧
      signs.map Sign.char = text ∧ (∀ c, .marked c ∈ signs → p c = true) ∧
      ∀ c, .lone c ∈ signs → p c = false := by
  constructor
  · rintro rfl
    exact ⟨_, signs?_backslashed h text, map_char_signOf p text,
      fun c hc => (marked_mem_signs_iff.mp hc).2, fun c hc => (lone_mem_signs_iff.mp hc).2⟩
  · rintro ⟨signs, hsigns, rfl, hmarked, hlone⟩
    -- each sign is the one that its character gets
    have hsame : (signs.map Sign.char).map (signOf p) = signs := by
      rw [List.map_map]
      refine (List.map_congr_left fun sign hsign => ?_).trans (List.map_id signs)
      cases sign with
      | lone c => simp [Sign.char, signOf, hlone c hsign]
      | marked c => simp [Sign.char, signOf, hmarked c hsign]
    have hback := signs?_backslashed h (signs.map Sign.char)
    rw [hsame] at hback
    rw [eq_flatMap_of_signs? hsigns, eq_flatMap_of_signs? hback]

/-! ## Reading to the end of the quotes -/

/-- Is the reader between double quotes? -/
def Mode.isQuoted : Mode → Bool
  | .double _ | .doubleEscape _ => true
  | _ => false

/-- **`state.untilClosed? text`** — read from between double quotes to the character that closes them: the
state behind it and the text that is left; none if they are not closed. -/
def State.untilClosed? (state : State) : Text → Option (State × Text)
  | [] => none
  | c :: rest =>
      if (state.step c).mode.isQuoted then (state.step c).untilClosed? rest
      else some (state.step c, rest)

theorem untilClosed?_cons_of_quoted {state : State} {c : Char}
    (h : (state.step c).mode.isQuoted = true) (rest : Text) :
    state.untilClosed? (c :: rest) = (state.step c).untilClosed? rest := by
  rw [untilClosed?, if_pos h]

/-- What is left is read on from the state behind the quotes. -/
theorem run_of_untilClosed? {state closed : State} {text left : Text}
    (h : state.untilClosed? text = some (closed, left)) : state.run text = closed.run left := by
  induction text generalizing state with
  | nil => cases h
  | cons c rest ih =>
      rw [untilClosed?] at h
      rw [run_cons]
      split at h
      · exact ih h
      · obtain ⟨rfl, rfl⟩ := Prod.mk.inj (Option.some.inj h)
        rfl

/-- **`sign.Stands`** — between double quotes the sign is read as its character. -/
def Sign.Stands : Sign → Prop
  | lone c => c ≠ '"'
  | marked c => isQuotable c = true

theorem step_lone {c : Char} (hne : c ≠ '\\') (h : (Sign.lone c).Stands) (finished : List Text)
    (word : Text) : step ⟨finished, .double word⟩ c = ⟨finished, .double (c :: word)⟩ := by
  have hquote : c ≠ '"' := h
  rw [step, if_neg hne, if_neg hquote]

theorem step_marked {c : Char} (h : (Sign.marked c).Stands) (finished : List Text) (word : Text) :
    step ⟨finished, .doubleEscape word⟩ c = ⟨finished, .double (c :: word)⟩ := by
  have hquotable : isQuotable c = true := h
  rw [step, if_pos hquotable]

/-- **Between double quotes, signs that stand are read as their characters**, and the quotes close behind
them, whatever comes then. -/
theorem untilClosed?_of_signs {text : Text} {signs : List Sign} (h : signs? text = some signs)
    (hstand : ∀ sign ∈ signs, sign.Stands) (finished : List Text) (word rest : Text) :
    untilClosed? ⟨finished, .double word⟩ (text ++ '"' :: rest) =
      some (⟨finished, .bare ((signs.map Sign.char).reverse ++ word)⟩, rest) := by
  fun_induction signs? text generalizing signs word with
  | case1 =>
      obtain rfl := Option.some.inj h
      rfl
  | case2 => cases h
  | case3 c text ih =>
      obtain ⟨others, hothers, rfl⟩ := Option.map_eq_some_iff.mp h
      rw [List.forall_mem_cons] at hstand
      have hmark : step ⟨finished, .double word⟩ '\\' = ⟨finished, .doubleEscape word⟩ := rfl
      have hkept := step_marked hstand.1 finished word
      rw [List.cons_append, untilClosed?_cons_of_quoted (by rw [hmark]; rfl), hmark, List.cons_append,
        untilClosed?_cons_of_quoted (by rw [hkept]; rfl), hkept, ih hothers hstand.2]
      simp [Sign.char]
  | case4 c text hne ih =>
      obtain ⟨others, hothers, rfl⟩ := Option.map_eq_some_iff.mp h
      rw [List.forall_mem_cons] at hstand
      have hkept := step_lone hne hstand.1 finished word
      rw [List.cons_append, untilClosed?_cons_of_quoted (by rw [hkept]; rfl), hkept,
        ih hothers hstand.2]
      simp [Sign.char]

/-- **`Quotes p`** — the class has both characters that mean something to the reader between double
quotes, and none that a backslash does not keep there. -/
structure Quotes (p : Char → Bool) : Prop where
  backslash : p '\\' = true
  quote : p '"' = true
  kept : ∀ c, p c = true → isQuotable c = true

theorem Quotes.stands {p : Char → Bool} (h : Quotes p) {text : Text} :
    ∀ sign ∈ text.map (signOf p), sign.Stands := by
  intro sign hsign
  cases sign with
  | lone c =>
      rintro rfl
      cases h.quote.symm.trans (lone_mem_signs_iff.mp hsign).2
  | marked c => exact h.kept c (marked_mem_signs_iff.mp hsign).2

/-- **So a text with such backslashes is read as the text**, and the quotes close behind it. -/
theorem Quotes.untilClosed?_backslashed {p : Char → Bool} (h : Quotes p) (finished : List Text)
    (word text rest : Text) :
    untilClosed? ⟨finished, .double word⟩ (backslashed p text ++ '"' :: rest) =
      some (⟨finished, .bare (text.reverse ++ word)⟩, rest) := by
  rw [untilClosed?_of_signs (signs?_backslashed h.backslash text) h.stands, map_char_signOf]

end PlainRequest.Shell
