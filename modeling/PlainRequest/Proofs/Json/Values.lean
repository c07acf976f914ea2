/-
# PlainRequest.Proofs.Json.Values — the values that reading can give

Reading gives values of a normal form, `Readable`: numbers are numerals, the keys of every object are
in strictly increasing order, and containers are nested no deeper than allowed. `Fits` says what a
state of the reader must hold for this; every token keeps it, so it holds of every state that is
reached, and the value that is complete at the end of a text has the form.
-/

import PlainRequest.Json.Reader
import PlainRequest.Proofs.Json.Numbers

namespace PlainRequest.Json

/-! ## The normal form -/

/-- The members stand in the order of their keys, and no key appears twice. -/
def SortedKeys (members : List (Text × Json)) : Prop :=
  (members.map Prod.fst).Pairwise (· < ·)

/-- **`Readable depth value`** — the value is one that reading can give where `depth` more
containers may be opened. -/
inductive Readable : Nat → Json → Prop
  | null {depth : Nat} : Readable depth .null
  | bool {depth : Nat} (value : Bool) : Readable depth (.bool value)
  | number {depth : Nat} {spelling : Text} (h : IsNumeral spelling) :
      Readable depth (.number spelling)
  | string {depth : Nat} (text : Text) : Readable depth (.string text)
  | array {depth : Nat} {items : List Json} (h : ∀ item ∈ items, Readable depth item) :
      Readable (depth + 1) (.array items)
  | object {depth : Nat} {members : List (Text × Json)} (hsorted : SortedKeys members)
      (h : ∀ member ∈ members, Readable depth member.2) :
      Readable (depth + 1) (.object members)

mutual

/-- The keys of all objects in a value, at every depth. -/
def keys : Json → List Text
  | .array items => itemKeys items
  | .object members => memberKeys members
  | _ => []

/-- The keys in the items of an array. -/
def itemKeys : List Json → List Text
  | [] => []
  | item :: items => keys item ++ itemKeys items

/-- The keys of members, and those in their values. -/
def memberKeys : List (Text × Json) → List Text
  | [] => []
  | (key, value) :: members => key :: (keys value ++ memberKeys members)

end

theorem mem_itemKeys_iff {key : Text} {items : List Json} :
    key ∈ itemKeys items ↔ ∃ item ∈ items, key ∈ keys item := by
  induction items with
  | nil => simp [itemKeys]
  | cons item items ih =>
      rw [itemKeys, List.mem_append, ih]
      simp only [List.mem_cons, exists_eq_or_imp]

theorem keys_of_mem_items {key : Text} {item : Json} {items : List Json} (hmem : item ∈ items)
    (hkey : key ∈ keys item) : key ∈ itemKeys items :=
  mem_itemKeys_iff.mpr ⟨item, hmem, hkey⟩

theorem mem_memberKeys_iff {key : Text} {members : List (Text × Json)} :
    key ∈ memberKeys members ↔ ∃ member ∈ members, key = member.1 ∨ key ∈ keys member.2 := by
  induction members with
  | nil => simp [memberKeys]
  | cons first members ih =>
      obtain ⟨k, v⟩ := first
      rw [memberKeys, List.mem_cons, List.mem_append, ih]
      simp only [List.mem_cons, exists_eq_or_imp, or_assoc]

theorem keys_of_mem_members {member : Text × Json} {members : List (Text × Json)}
    (hmem : member ∈ members) :
    member.1 ∈ memberKeys members ∧ ∀ key ∈ keys member.2, key ∈ memberKeys members :=
  ⟨mem_memberKeys_iff.mpr ⟨member, hmem, .inl rfl⟩,
    fun _ hkey => mem_memberKeys_iff.mpr ⟨member, hmem, .inr hkey⟩⟩

/-! ## Members in the order of their keys -/

/-- Setting a member leaves every other one as it was. -/
theorem of_mem_setMember {key : Text} {value : Json} {members : List (Text × Json)}
    {member : Text × Json} (h : member ∈ setMember key value members) :
    member = (key, value) ∨ member ∈ members := by
  induction members with
  | nil => exact .inl (by simpa [setMember] using h)
  | cons first members ih =>
      obtain ⟨k, v⟩ := first
      rw [setMember] at h
      split at h
      · rcases List.mem_cons.mp h with h | h
        · exact .inl h
        · exact .inr (List.mem_cons_of_mem _ h)
      split at h
      · rcases List.mem_cons.mp h with h | h
        · exact .inl h
        · exact .inr h
      · rcases List.mem_cons.mp h with h | h
        · exact .inr (by simp [h])
        · exact (ih h).imp_right (List.mem_cons_of_mem _)

theorem lt_of_not_lt {a b : Text} (hne : a ≠ b) (h : ¬ a < b) : b < a := by
  apply Classical.byContradiction
  intro hcontra
  apply hne
  exact List.le_antisymm (List.not_lt.mp hcontra) (List.not_lt.mp h)

/-- Setting a member keeps the order of the keys. -/
theorem sortedKeys_setMember {key : Text} {value : Json} {members : List (Text × Json)}
    (h : SortedKeys members) : SortedKeys (setMember key value members) := by
  induction members with
  | nil => simp [SortedKeys, setMember]
  | cons first members ih =>
      obtain ⟨k, v⟩ := first
      simp only [SortedKeys, List.map_cons, List.pairwise_cons] at h
      obtain ⟨hfirst, hrest⟩ := h
      rw [setMember]
      split
      · next heq =>
          subst heq
          simp only [SortedKeys, List.map_cons, List.pairwise_cons]
          exact ⟨hfirst, hrest⟩
      split
      · next hlt =>
          simp only [SortedKeys, List.map_cons, List.pairwise_cons, List.mem_cons, forall_eq_or_imp]
          exact ⟨⟨hlt, fun other hother => List.lt_trans hlt (hfirst other hother)⟩, hfirst, hrest⟩
      · next hne hnot =>
          -- the new member goes behind the first, whose key is smaller than it and than the others
          simp only [SortedKeys, List.map_cons, List.pairwise_cons, List.mem_map]
          refine ⟨?_, ih hrest⟩
          rintro other ⟨member, hmem, rfl⟩
          rcases of_mem_setMember hmem with rfl | hmem
          · exact lt_of_not_lt hne hnot
          · exact hfirst member.1 (List.mem_map_of_mem hmem)

/-- What setting members one after another keeps: the order, and any property of the members. -/
theorem foldl_setMember {P : Text × Json → Prop} (members : List (Text × Json))
    {sorted : List (Text × Json)} (hsorted : SortedKeys sorted)
    (hall : ∀ member ∈ sorted, P member) (h : ∀ member ∈ members, P member) :
    SortedKeys (members.foldl (fun sorted (key, value) => setMember key value sorted) sorted) ∧
      ∀ member ∈ members.foldl (fun sorted (key, value) => setMember key value sorted) sorted,
        P member := by
  induction members generalizing sorted with
  | nil => exact ⟨hsorted, hall⟩
  | cons first members ih =>
      refine ih (sortedKeys_setMember hsorted) ?_ fun member hmem =>
        h member (List.mem_cons_of_mem _ hmem)
      intro member hmem
      rcases of_mem_setMember hmem with rfl | hmem
      · exact h _ (by simp)
      · exact hall member hmem

theorem sortedKeys_sortMembers (members : List (Text × Json)) : SortedKeys (sortMembers members) :=
  (foldl_setMember (P := fun _ => True) members (by simp [SortedKeys]) (by simp) (by simp)).1

/-- Every member among the sorted ones is one of those that were written. -/
theorem of_mem_sortMembers {members : List (Text × Json)} {member : Text × Json}
    (h : member ∈ sortMembers members) : member ∈ members := by
  have hempty : SortedKeys [] := List.Pairwise.nil
  have hall := (foldl_setMember (P := (· ∈ members)) members hempty (by simp) fun _ hmem => hmem).2
  exact hall member h

/-- A key that is larger than all is set at the end. -/
theorem setMember_of_larger {key : Text} {value : Json} {members : List (Text × Json)}
    (h : ∀ member ∈ members, member.1 < key) :
    setMember key value members = members ++ [(key, value)] := by
  induction members with
  | nil => rfl
  | cons first members ih =>
      obtain ⟨k, v⟩ := first
      have hfirst : k < key := h (k, v) (by simp)
      have hne : key ≠ k := by
        rintro rfl
        exact List.lt_irrefl _ hfirst
      have hnot : ¬ key < k := fun hlt => List.lt_irrefl _ (List.lt_trans hlt hfirst)
      rw [setMember, if_neg hne, if_neg hnot,
        ih fun member hmem => h member (List.mem_cons_of_mem _ hmem)]
      rfl

/-- **Members that are in order stay as they are.** -/
theorem sortMembers_of_sortedKeys {members : List (Text × Json)} (h : SortedKeys members) :
    sortMembers members = members := by
  -- the members that are set already are all in front of those still to come
  have hfold : ∀ before : List (Text × Json), SortedKeys (before ++ members) →
      members.foldl (fun sorted (key, value) => setMember key value sorted) before =
        before ++ members := by
    clear h
    induction members with
    | nil => simp
    | cons first members ih =>
        intro before hbefore
        obtain ⟨k, v⟩ := first
        have hlarger : ∀ member ∈ before, member.1 < k := by
          intro member hmem
          simp only [SortedKeys, List.map_append, List.map_cons] at hbefore
          exact (List.pairwise_append.mp hbefore).2.2 member.1 (List.mem_map_of_mem hmem) k (by simp)
        rw [List.foldl_cons]
        show List.foldl _ (setMember k v before) members = _
        rw [setMember_of_larger hlarger, ih _ (by simpa using hbefore), List.append_assoc]
        rfl
  exact hfold [] h

/-! ## The reader keeps the form -/

/-- A number token holds a numeral. -/
def Token.IsWellSpelled : Token → Prop
  | .number spelling => IsNumeral spelling
  | _ => True

theorem isWellSpelled_of_mark? {c : Char} {token : Token} (h : mark? c = some token) :
    token.IsWellSpelled := by
  unfold mark? at h
  repeat' split at h
  all_goals first
    | (obtain rfl := Option.some.inj h; trivial)
    | simp at h

theorem isWellSpelled_of_word? {c : Char} {others : Text} {token : Token}
    (h : word? c = some (others, token)) : token.IsWellSpelled := by
  unfold word? at h
  repeat' split at h
  all_goals first
    | (obtain ⟨-, rfl⟩ := Prod.mk.inj (Option.some.inj h); trivial)
    | simp at h

theorem isWellSpelled_of_next? {text left : Text} {token : Token}
    (h : next? text = some (token, left)) : token.IsWellSpelled := by
  cases text with
  | nil => simp [next?] at h
  | cons c rest =>
      unfold next? at h
      cases hmark : mark? c with
      | some mark =>
          simp only [hmark, Option.some.injEq, Prod.mk.injEq] at h
          rw [← h.1]
          exact isWellSpelled_of_mark? hmark
      | none =>
          cases hword : word? c with
          | some word =>
              simp only [hmark, hword, Option.map_eq_some_iff, Prod.mk.injEq] at h
              obtain ⟨_, -, rfl, -⟩ := h
              exact isWellSpelled_of_word? hword
          | none =>
              simp only [hmark, hword] at h
              split at h
              · simp only [Option.map_eq_some_iff, Prod.mk.injEq] at h
                obtain ⟨_, -, rfl, -⟩ := h
                trivial
              · simp only [Option.map_eq_some_iff, Prod.mk.injEq] at h
                obtain ⟨_, hread, rfl, -⟩ := h
                exact (isNumeral_of_readNumber? hread).1

theorem isWellSpelled_of_tokens? {text : Text} {tokens : List Token}
    (h : tokens? text = some tokens) : ∀ token ∈ tokens, token.IsWellSpelled := by
  fun_induction tokens? text generalizing tokens with
  | case1 =>
      obtain rfl : [] = tokens := by simpa using h
      simp
  | case2 c rest hgap ih => exact ih h
  | case3 c rest hgap hnone => simp at h
  | case4 c rest hgap token left hnext _ ih =>
      obtain ⟨others, hothers, rfl⟩ := Option.map_eq_some_iff.mp h
      intro other hmem
      rcases List.mem_cons.mp hmem with rfl | hmem
      · exact isWellSpelled_of_next? hnext
      · exact ih hothers other hmem

/-- Everything that an open container holds can be read where `depth` more may be opened. -/
def Frame.Fits (depth : Nat) : Frame → Prop
  | .array items => ∀ item ∈ items, Readable depth item
  | .object members _ => ∀ member ∈ members, Readable depth member.2

/-- **`FitFrames depth frames`** — inside of these containers `depth` more may be opened, and what
they hold can be read where it stands. -/
inductive FitFrames : Nat → List Frame → Prop
  | nil : FitFrames maxDepth []
  | cons {depth : Nat} {frame : Frame} {frames : List Frame} (h : frame.Fits depth)
      (houter : FitFrames (depth + 1) frames) : FitFrames depth (frame :: frames)

/-- **The invariant of the reader.** While the key of a member is being read its object is not among
the open containers, so there is room for it. -/
inductive Fits : ReadState → Prop
  | value {depth : Nat} {frames : List Frame} (h : FitFrames depth frames) : Fits ⟨frames, .value⟩
  | firstItem {depth : Nat} {frames : List Frame} (h : FitFrames (depth + 1) frames) :
      Fits ⟨.array [] :: frames, .firstItem⟩
  | firstKey {depth : Nat} {frames : List Frame} (h : FitFrames (depth + 1) frames) :
      Fits ⟨frames, .firstKey⟩
  | nextKey {depth : Nat} {frames : List Frame} {members : List (Text × Json)}
      (h : FitFrames (depth + 1) frames) (hall : ∀ member ∈ members, Readable depth member.2) :
      Fits ⟨frames, .nextKey members⟩
  | colon {depth : Nat} {frames : List Frame} {members : List (Text × Json)} {key : Text}
      (h : FitFrames (depth + 1) frames) (hall : ∀ member ∈ members, Readable depth member.2) :
      Fits ⟨frames, .colon members key⟩
  | complete {depth : Nat} {frames : List Frame} {value : Json} (h : FitFrames depth frames)
      (hvalue : Readable depth value) : Fits ⟨frames, .complete value⟩

theorem FitFrames.length {depth : Nat} {frames : List Frame} (h : FitFrames depth frames) :
    depth + frames.length = maxDepth := by
  induction h with
  | nil => rfl
  | cons _ _ ih =>
      rw [List.length_cons]
      omega

/-- If one more container may be opened, then there is room for it. -/
theorem FitFrames.room {depth : Nat} {frames : List Frame} (h : FitFrames depth frames)
    (hlength : frames.length < maxDepth) : ∃ less, depth = less + 1 := by
  have hall := h.length
  exact ⟨depth - 1, by omega⟩

theorem readable_of_scalar? {depth : Nat} {token : Token} {value : Json}
    (hspelled : token.IsWellSpelled) (h : scalar? token = some value) : Readable depth value := by
  cases token with
  | null =>
      obtain rfl := Option.some.inj h
      exact .null
  | bool b =>
      obtain rfl := Option.some.inj h
      exact .bool b
  | number spelling =>
      obtain rfl := Option.some.inj h
      exact .number hspelled
  | string text =>
      obtain rfl := Option.some.inj h
      exact .string text
  | openArray | closeArray | openObject | closeObject | comma | colon => simp [scalar?] at h

/-- An object is its members in order, unless it stands for a number. -/
theorem readable_of_ofMembers? {depth : Nat} {members : List (Text × Json)} {value : Json}
    (hall : ∀ member ∈ members, Readable depth member.2) (h : ofMembers? members = some value) :
    Readable (depth + 1) value := by
  unfold ofMembers? at h
  split at h
  · obtain rfl := Option.some.inj h
    exact .object (by simp [SortedKeys]) (by simp)
  split at h
  · split at h
    · obtain ⟨spelling, hspelling, rfl⟩ := Option.map_eq_some_iff.mp h
      exact .number (isNumeral_of_numberOf? hspelling)
    · simp at h
  · obtain rfl := Option.some.inj h
    apply Readable.object (sortedKeys_sortMembers _)
    intro member hmem
    exact hall member (of_mem_sortMembers hmem)

theorem fits_stepValue {depth : Nat} {frames : List Frame} {token : Token} {next : ReadState}
    (hframes : FitFrames depth frames) (hspelled : token.IsWellSpelled)
    (h : stepValue frames token = some next) : Fits next := by
  unfold stepValue at h
  split at h
  · split at h
    · next hroom =>
        obtain rfl := Option.some.inj h
        obtain ⟨less, rfl⟩ := hframes.room hroom
        exact .firstItem hframes
    · simp at h
  · split at h
    · next hroom =>
        obtain rfl := Option.some.inj h
        obtain ⟨less, rfl⟩ := hframes.room hroom
        exact .firstKey hframes
    · simp at h
  · obtain ⟨value, hvalue, rfl⟩ := Option.map_eq_some_iff.mp h
    exact .complete hframes (readable_of_scalar? hspelled hvalue)

theorem fits_stepComplete {depth : Nat} {frames : List Frame} {value : Json} {token : Token}
    {next : ReadState} (hframes : FitFrames depth frames) (hvalue : Readable depth value)
    (h : stepComplete frames value token = some next) : Fits next := by
  unfold stepComplete at h
  split at h
  · obtain rfl := Option.some.inj h
    cases hframes with
    | cons hitems houter =>
        refine .value (.cons ?_ houter)
        exact List.forall_mem_cons.mpr ⟨hvalue, hitems⟩
  · obtain rfl := Option.some.inj h
    cases hframes with
    | cons hitems houter =>
        refine .complete houter (.array ?_)
        intro item hmem
        exact List.forall_mem_cons.mpr ⟨hvalue, hitems⟩ item (List.mem_reverse.mp hmem)
  · obtain rfl := Option.some.inj h
    cases hframes with
    | cons hmembers houter =>
        apply Fits.nextKey houter
        intro member hmem
        rcases List.mem_cons.mp hmem with rfl | hmem
        · exact hvalue
        · exact hmembers member hmem
  · obtain ⟨object, hobject, rfl⟩ := Option.map_eq_some_iff.mp h
    cases hframes with
    | cons hmembers houter =>
        refine .complete houter (readable_of_ofMembers? ?_ hobject)
        intro member hmem
        rcases List.mem_cons.mp (List.mem_reverse.mp hmem) with rfl | hmem
        · exact hvalue
        · exact hmembers member hmem
  · simp at h

/-- **One token keeps the invariant.** -/
theorem fits_step {state next : ReadState} {token : Token} (hfits : Fits state)
    (hspelled : token.IsWellSpelled) (h : step state token = some next) : Fits next := by
  unfold step at h
  -- the mode is known in each case, and most tokens are refused in it
  cases hfits with
  | value hframes => exact fits_stepValue hframes hspelled h
  | firstItem hframes =>
      dsimp only at h
      split at h
      any_goals contradiction
      · obtain rfl := Option.some.inj h
        exact .complete hframes (.array (by simp))
      · refine fits_stepValue (.cons ?_ hframes) hspelled h
        intro item hmem
        simp at hmem
  | firstKey hframes =>
      dsimp only at h
      split at h
      any_goals contradiction
      · obtain rfl := Option.some.inj h
        exact .complete hframes (.object (by simp [SortedKeys]) (by simp))
      · obtain rfl := Option.some.inj h
        exact .colon hframes (by simp)
  | nextKey hframes hall =>
      dsimp only at h
      split at h
      any_goals contradiction
      · next heq =>
          cases heq
          obtain rfl := Option.some.inj h
          exact .colon hframes hall
  | colon hframes hall =>
      dsimp only at h
      split at h
      any_goals contradiction
      · next heq =>
          cases heq
          obtain rfl := Option.some.inj h
          exact .value (.cons hall hframes)
  | complete hframes hvalue => exact fits_stepComplete hframes hvalue h

theorem run_nil (state : ReadState) : run state [] = some state := rfl

theorem run_cons (state : ReadState) (token : Token) (tokens : List Token) :
    run state (token :: tokens) = (step state token).bind fun next => run next tokens := rfl

/-- **Every state that is reached has the invariant.** -/
theorem fits_run {tokens : List Token} {state final : ReadState} (hfits : Fits state)
    (hspelled : ∀ token ∈ tokens, token.IsWellSpelled) (h : run state tokens = some final) :
    Fits final := by
  induction tokens generalizing state with
  | nil =>
      obtain rfl := Option.some.inj h
      exact hfits
  | cons token tokens ih =>
      rw [run_cons] at h
      obtain ⟨next, hnext, hrest⟩ := Option.bind_eq_some_iff.mp h
      have hfirst := hspelled token (by simp)
      exact ih (fits_step hfits hfirst hnext)
        (fun other hmem => hspelled other (List.mem_cons_of_mem _ hmem)) hrest

/-- **What is read from a text has the normal form.** -/
theorem readable_of_ofText? {text : Text} {value : Json} (h : ofText? text = some value) :
    Readable maxDepth value := by
  obtain ⟨tokens, htokens, hread⟩ := Option.bind_eq_some_iff.mp h
  obtain ⟨final, hrun, hresult⟩ := Option.bind_eq_some_iff.mp hread
  have hfits := fits_run (.value .nil) (isWellSpelled_of_tokens? htokens) hrun
  unfold ReadState.result? at hresult
  -- with no container open, there was room for all of them
  split at hresult
  · obtain rfl := Option.some.inj hresult
    cases hfits with
    | complete hframes hvalue =>
        cases hframes
        exact hvalue
  · simp at hresult

end PlainRequest.Json
