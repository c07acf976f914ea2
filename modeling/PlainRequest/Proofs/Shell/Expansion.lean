/-
# PlainRequest.Proofs.Shell.Expansion — text in which a shell replaces nothing

A shell puts something else in the place of what begins with `$` or a backquote, unless that character
stands behind a backslash, between single quotes or in a comment. Whether it does is seen from the mode in
which the character is read. `Inert` says that nothing of a text is replaced. It holds of spellings, one
after the other, since a spelling never leaves such a character bare and never puts it between double quotes
without a backslash.
-/

import PlainRequest.Proofs.Shell.DoubleQuotes
import PlainRequest.Proofs.Shell.Spelling

namespace PlainRequest.Shell

open Text State

/-! ## What begins an expansion -/

/-- Does the character begin an expansion where one may begin? -/
def opensExpansion (c : Char) : Bool := c = '$' || c = '`'

/-- May an expansion begin here? -/
def Mode.mayExpand : Mode → Bool
  | .gap | .bare _ | .double _ => true
  | _ => false

/-- **`Inert state text`** — read from this state on, no expansion begins in the text. -/
def Inert (state : State) (text : Text) : Prop :=
  ∀ before c after, text = before ++ c :: after → opensExpansion c = true →
    (state.run before).mode.mayExpand = false

section

variable {state : State} {text : Text}

theorem inert_nil (state : State) : Inert state [] :=
  fun before _ _ h => absurd h.symm (by simp)

theorem inert_cons_iff {c : Char} {rest : Text} :
    Inert state (c :: rest) ↔
      (opensExpansion c = true → state.mode.mayExpand = false) ∧ Inert (state.step c) rest := by
  constructor
  · intro h
    refine ⟨h [] c rest rfl, ?_⟩
    rintro before d after rfl
    exact h (c :: before) d after rfl
  · rintro ⟨hfirst, hrest⟩ before d after htext
    cases before with
    | nil =>
        obtain ⟨rfl, -⟩ := List.cons.inj htext
        exact hfirst
    | cons e before =>
        obtain ⟨rfl, hafter⟩ := List.cons.inj htext
        exact hrest before d after hafter

/-- **One text behind the other.** -/
theorem inert_append_iff {a b : Text} :
    Inert state (a ++ b) ↔ Inert state a ∧ Inert (state.run a) b := by
  induction a generalizing state with
  | nil => simp [inert_nil]
  | cons c rest ih => rw [List.cons_append, inert_cons_iff, inert_cons_iff, ih, run_cons, and_assoc]

/-- Without one of the characters that begin an expansion there is none. -/
theorem inert_of_any_eq_false (h : text.any opensExpansion = false) : Inert state text := by
  rintro before c after rfl hopens
  exact absurd hopens (List.any_eq_false.mp h c (by simp))

end

/-! ## Quoted text -/

section

variable {text : Text} (finished : List Text) (word : Text)

theorem inert_single (h : '\'' ∉ text) : Inert ⟨finished, .single word⟩ text := by
  rintro before c after rfl _
  rw [List.mem_append, not_or] at h
  rw [run_single h.1]
  rfl

/-- Between double quotes nothing begins at a character behind a backslash. -/
theorem inert_of_signs {signs : List Sign} (h : signs? text = some signs)
    (hstand : ∀ sign ∈ signs, sign.Stands) (hlone : ∀ c, .lone c ∈ signs → opensExpansion c = false) :
    Inert ⟨finished, .double word⟩ text := by
  fun_induction signs? text generalizing signs word with
  | case1 => exact inert_nil _
  | case2 => cases h
  | case3 c text ih =>
      obtain ⟨others, hothers, rfl⟩ := Option.map_eq_some_iff.mp h
      rw [List.forall_mem_cons] at hstand
      have hrest := ih (c :: word) hothers hstand.2 fun d hd => hlone d (List.mem_cons_of_mem _ hd)
      rw [← step_marked hstand.1] at hrest
      -- the backslash begins nothing, and behind it nothing may begin
      exact inert_cons_iff.mpr ⟨fun hopens => absurd hopens (by decide),
        inert_cons_iff.mpr ⟨fun _ => rfl, hrest⟩⟩
  | case4 c text hne ih =>
      obtain ⟨others, hothers, rfl⟩ := Option.map_eq_some_iff.mp h
      rw [List.forall_mem_cons] at hstand
      have hrest := ih (c :: word) hothers hstand.2 fun d hd => hlone d (List.mem_cons_of_mem _ hd)
      rw [← step_lone hne hstand.1] at hrest
      refine inert_cons_iff.mpr ⟨fun hopens => ?_, hrest⟩
      rw [hlone c List.mem_cons_self] at hopens
      cases hopens

end

/-! ## Text that is escaped for double quotes -/

theorem escapeDouble_eq_backslashed (text : Text) : escapeDouble text = backslashed needsEscape text :=
  rfl

theorem quotes_needsEscape : Quotes needsEscape :=
  ⟨by decide, by decide, fun c h => (isQuotable_eq_needsEscape c).trans h⟩

/-- **What is escaped for double quotes has its characters as signs.** -/
theorem signs?_escapeDouble (text : Text) :
    signs? (escapeDouble text) = some (text.map (signOf needsEscape)) := by
  rw [escapeDouble_eq_backslashed, signs?_backslashed quotes_needsEscape.backslash]

/-- What stands alone closes no quotes, opens no escape and begins no expansion. -/
theorem of_lone_mem_signs {text : Text} {c : Char}
    (h : .lone c ∈ text.map (signOf needsEscape)) : c ≠ '\\' ∧ c ≠ '"' ∧ c ≠ '$' ∧ c ≠ '`' := by
  have hplain := (lone_mem_signs_iff.mp h).2
  simp only [needsEscape, Bool.or_eq_false_iff, decide_eq_false_iff_not] at hplain
  tauto

theorem inert_escapeDouble (finished : List Text) (word text : Text) :
    Inert ⟨finished, .double word⟩ (escapeDouble text) := by
  refine inert_of_signs finished word (signs?_escapeDouble text) quotes_needsEscape.stands ?_
  intro c hc
  obtain ⟨-, -, hdollar, hback⟩ := of_lone_mem_signs hc
  simp [opensExpansion, hdollar, hback]

/-! ## Spellings -/

theorem opensExpansion_of_isBare {c : Char} (h : Ways.isBare c = true) : opensExpansion c = false := by
  rw [Bool.eq_false_iff]
  intro hopens
  simp only [opensExpansion, Bool.or_eq_true, decide_eq_true_eq] at hopens
  rcases hopens with rfl | rfl
  · exact absurd h (by decide)
  · exact absurd h (by decide)

theorem inert_bare {state : State} {text : Text} (h : text.all Ways.isBare = true) :
    Inert state text := by
  rw [List.all_eq_true] at h
  refine inert_of_any_eq_false (List.any_eq_false.mpr fun c hc => ?_)
  rw [opensExpansion_of_isBare (h c hc)]
  decide

/-- A quotation mark, what stands behind it, and the mark again. -/
theorem inert_quoted {state : State} {mark : Char} {text : Text} (hmark : opensExpansion mark = false)
    (h : Inert (state.step mark) text) : Inert state ([mark] ++ text ++ [mark]) := by
  have hends : ∀ state, Inert state [mark] := fun state => inert_of_any_eq_false (by simpa using hmark)
  rw [inert_append_iff, inert_append_iff]
  exact ⟨⟨hends state, h⟩, hends _⟩

theorem inert_write {ways : Ways} {chunk : Text} (h : ways.Covers chunk) (finished : List Text)
    (word : Text) : Inert ⟨finished, .bare word⟩ (ways.write chunk) := by
  unfold Ways.write
  split
  · next hbare => exact inert_bare (List.all_eq_true.mpr (h.bare hbare))
  split
  · next hsingle => exact inert_quoted (by decide) (inert_single finished word (h.single hsingle))
  · exact inert_quoted (by decide) (inert_escapeDouble finished word chunk)

theorem inert_quoteChunks (text : Text) (finished : List Text) (word : Text) :
    Inert ⟨finished, .bare word⟩ (quoteChunks text) := by
  fun_induction quoteChunks text generalizing word with
  | case1 => exact inert_nil _
  | case2 c rest ways chunk left h _ ih =>
      have hcover : ways.Covers (c :: chunk) := by
        have hcover := covers_takeChunk rest (Ways.covers_first c)
        rwa [h] at hcover
      rw [inert_append_iff, run_write hcover]
      exact ⟨inert_write hcover finished word, ih _⟩

/-- Where a word starts, an expansion may begin just as in a word. -/
theorem inert_gap {c : Char} {rest : Text} (hsep : isSeparator c = false) (hhash : c ≠ '#')
    {finished : List Text} (h : Inert ⟨finished, .bare []⟩ (c :: rest)) :
    Inert ⟨finished, .gap⟩ (c :: rest) := by
  rw [inert_cons_iff] at h ⊢
  rw [step_gap hsep hhash]
  exact h

/-- **In the spelling of a word no expansion begins.** -/
theorem inert_quote? {word spelling : Text} (h : quote? word = some spelling) (finished : List Text) :
    Inert ⟨finished, .gap⟩ spelling := by
  unfold quote? at h
  split at h
  · cases h
  cases word with
  | nil =>
      obtain rfl := Option.some.inj h
      exact inert_of_any_eq_false (by decide)
  | cons c rest =>
      obtain rfl := Option.some.inj h
      have hinert := inert_quoteChunks (c :: rest) finished []
      have hcover : (takeChunk (Ways.first c) rest).1.Covers
          (c :: (takeChunk (Ways.first c) rest).2.1) := covers_takeChunk rest (Ways.covers_first c)
      obtain ⟨d, tail, hwrite, hsep, hhash⟩ := write_head hcover
      rw [quoteChunks_cons, hwrite, List.cons_append] at hinert ⊢
      exact inert_gap hsep hhash hinert

/-- Nor does one begin in a text that is escaped between double quotes. -/
theorem inert_double (text : Text) (finished : List Text) :
    Inert ⟨finished, .gap⟩ (['"'] ++ escapeDouble text ++ ['"']) :=
  inert_quoted (by decide) (inert_escapeDouble finished [] text)

/-- **Spellings with a space between them** are inert if each of them is. -/
theorem inert_joinWith {spellings words : List Text} (h : List.Forall₂ Spells spellings words)
    (hinert : ∀ spelling ∈ spellings, ∀ finished, Inert ⟨finished, .gap⟩ spelling)
    (finished : List Text) : Inert ⟨finished, .gap⟩ (joinWith [' '] spellings) := by
  induction h generalizing finished with
  | nil => exact inert_nil _
  | @cons spelling word spellings words hword hrest ih =>
      rw [List.forall_mem_cons] at hinert
      by_cases hlast : spellings = []
      · rw [hlast]
        exact hinert.1 finished
      · -- the space behind a spelling begins nothing, and the next one starts in a gap again
        have hspace := run_spelling_space hword finished []
        rw [joinWith_cons hlast, inert_append_iff, inert_append_iff, hspace]
        exact ⟨⟨hinert.1 finished, inert_of_any_eq_false (by decide)⟩, ih hinert.2 _⟩

end PlainRequest.Shell
