/-
# PlainRequest.Proofs.Json.Meaning — reading keeps what a text means

A text spells a tree, in which the members of an object stand as they are written; reading gives a
value, in which they stand in the order of their keys, each key once. `SameValue` says what must not
change on the way. That it does not is an invariant of the reader, `Covers`: whatever it holds when
some tokens are read, those tokens spell, the containers that are open and the value that is complete.
Only an object with the key that marks a number is excepted, since it may be read as that number.
-/

import PlainRequest.Proofs.Json.Spelling
import PlainRequest.Proofs.Keyed
import Mathlib.Data.List.Forall2

namespace PlainRequest.Json

/-! ## The same value -/

/-- **`SameValue tree other`** — arrays agree item by item, in their order; objects agree key by key,
in whatever order, and of members with one key the last decides; all else is equal. -/
inductive SameValue : Json → Json → Prop
  | null : SameValue .null .null
  | bool (value : Bool) : SameValue (.bool value) (.bool value)
  | number (spelling : Text) : SameValue (.number spelling) (.number spelling)
  | string (text : Text) : SameValue (.string text) (.string text)
  | array {items others : List Json} (h : List.Forall₂ SameValue items others) :
      SameValue (.array items) (.array others)
  | object {members others : List (Text × Json)}
      (hkeys : ∀ key, key ∈ members.map Prod.fst ↔ key ∈ others.map Prod.fst)
      (h : ∀ key value other, Keyed.last? key members = some value →
        Keyed.last? key others = some other → SameValue value other) :
      SameValue (.object members) (.object others)

/-! ## Members in the order of their keys -/

theorem get?_setMember (key k : Text) (value : Json) (members : List (Text × Json)) :
    Keyed.get? k (setMember key value members) =
      if k = key then some value else Keyed.get? k members := by
  induction members with
  | nil => simp [setMember, Keyed.get?, eq_comm]
  | cons first members ih =>
      obtain ⟨k', v⟩ := first
      rw [setMember]
      split
      · next heq =>
          subst heq
          by_cases hk : k = key
          · simp [Keyed.get?, hk]
          · simp [Keyed.get?, hk, Ne.symm hk]
      split
      · by_cases hk : k = key
        · simp [Keyed.get?, hk]
        · simp [Keyed.get?, hk, Ne.symm hk]
      · next hne _ =>
          rw [Keyed.get?, Keyed.get?, ih]
          by_cases hk : k = key
          · subst hk
            rw [if_neg (Ne.symm hne), if_pos rfl, if_pos rfl]
          · rw [if_neg hk, if_neg hk]

/-- Setting members one after another is looked up as writing them one after another is. -/
theorem get?_foldl_setMember (key : Text) (members sorted : List (Text × Json)) :
    Keyed.get? key (members.foldl (fun sorted (key, value) => setMember key value sorted) sorted) =
      (Keyed.last? key members).or (Keyed.get? key sorted) := by
  induction members generalizing sorted with
  | nil => rfl
  | cons first members ih =>
      obtain ⟨k, value⟩ := first
      rw [List.foldl_cons, ih, get?_setMember, Keyed.last?_cons]
      by_cases hk : k = key
      · cases Keyed.last? key members <;> simp [hk]
      · simp [hk, Ne.symm hk]

theorem nodup_of_sortedKeys {members : List (Text × Json)} (h : SortedKeys members) :
    (members.map Prod.fst).Nodup := by
  apply List.Pairwise.imp _ h
  rintro a _ hlt rfl
  exact List.lt_irrefl a hlt

/-- **Sorting keeps the last value of every key.** -/
theorem last?_sortMembers (key : Text) (members : List (Text × Json)) :
    Keyed.last? key (sortMembers members) = Keyed.last? key members := by
  have hnodup := nodup_of_sortedKeys (sortedKeys_sortMembers members)
  rw [← Keyed.get?_eq_last? hnodup, sortMembers, get?_foldl_setMember]
  cases Keyed.last? key members <;> rfl

theorem mem_keys_sortMembers (key : Text) (members : List (Text × Json)) :
    key ∈ (sortMembers members).map Prod.fst ↔ key ∈ members.map Prod.fst := by
  rw [← not_iff_not, ← Keyed.last?_eq_none_iff, ← Keyed.last?_eq_none_iff, last?_sortMembers]

/-! ## What reading makes of a tree -/

/-- **`Reads tree value`** — the value is what the tree means, provided that no object in the tree has
the key that marks a number. -/
def Reads (tree value : Json) : Prop :=
  numberKey ∉ keys tree → SameValue tree value ∧ numberKey ∉ keys value

/-- A member as it is written and as it is read. -/
def ReadsMember (written read : Text × Json) : Prop :=
  written.1 = read.1 ∧ Reads written.2 read.2

theorem reads_scalar {token : Token} {value : Json} (h : scalar? token = some value) :
    Reads value value ∧ toTokens value = [token] := by
  cases token with
  | null =>
      obtain rfl := Option.some.inj h
      exact ⟨fun hkeys => ⟨.null, hkeys⟩, rfl⟩
  | bool value =>
      obtain rfl := Option.some.inj h
      exact ⟨fun hkeys => ⟨.bool value, hkeys⟩, rfl⟩
  | number spelling =>
      obtain rfl := Option.some.inj h
      exact ⟨fun hkeys => ⟨.number spelling, hkeys⟩, rfl⟩
  | string text =>
      obtain rfl := Option.some.inj h
      exact ⟨fun hkeys => ⟨.string text, hkeys⟩, rfl⟩
  | openArray | closeArray | openObject | closeObject | comma | colon => simp [scalar?] at h

theorem reads_array {trees items : List Json} (h : List.Forall₂ Reads trees items) :
    Reads (.array trees) (.array items) := by
  intro hkeys
  have hall : List.Forall₂ SameValue trees items ∧ numberKey ∉ itemKeys items := by
    rw [keys] at hkeys
    induction h with
    | nil => exact ⟨.nil, hkeys⟩
    | cons hfirst _ ih =>
        rw [itemKeys, List.mem_append, not_or] at hkeys
        obtain ⟨hsame, hitem⟩ := hfirst hkeys.1
        obtain ⟨hrest, hitems⟩ := ih hkeys.2
        refine ⟨.cons hsame hrest, ?_⟩
        rw [itemKeys, List.mem_append, not_or]
        exact ⟨hitem, hitems⟩
  exact ⟨.array hall.1, hall.2⟩

/-- Members are read one by one, before they are put in order. -/
theorem reads_members {written read : List (Text × Json)}
    (h : List.Forall₂ ReadsMember written read) (hkeys : numberKey ∉ memberKeys written) :
    List.Forall₂ (fun a b => a.1 = b.1 ∧ SameValue a.2 b.2) written read ∧
      numberKey ∉ memberKeys read := by
  induction h with
  | nil => exact ⟨.nil, hkeys⟩
  | @cons a b written read hfirst _ ih =>
      obtain ⟨key, tree⟩ := a
      obtain ⟨key', value⟩ := b
      obtain ⟨rfl, hreads⟩ : key = key' ∧ Reads tree value := hfirst
      rw [memberKeys, List.mem_cons, List.mem_append, not_or, not_or] at hkeys
      obtain ⟨hkey, hinner, hothers⟩ := hkeys
      obtain ⟨hsame, hvalue⟩ := hreads hinner
      obtain ⟨hrest, hread⟩ := ih hothers
      refine ⟨.cons ⟨rfl, hsame⟩ hrest, ?_⟩
      rw [memberKeys, List.mem_cons, List.mem_append, not_or, not_or]
      exact ⟨hkey, hvalue, hread⟩

/-- **An object means its members**, in whatever order they come out. -/
theorem reads_object {written read : List (Text × Json)} {object : Json}
    (h : List.Forall₂ ReadsMember written read) (hobject : ofMembers? read = some object) :
    Reads (.object written) object := by
  intro hkeys
  obtain ⟨hsame, hread⟩ := reads_members h hkeys
  -- no member marks a number, so the object is the sorted members
  have hne : ∀ member ∈ read, member.1 ≠ numberKey := by
    intro member hmem heq
    exact hread (heq ▸ (keys_of_mem_members hmem).1)
  rw [ofMembers?_of_ne hne, Option.some.injEq] at hobject
  rw [← hobject]
  constructor
  · apply SameValue.object
    · intro key
      rw [mem_keys_sortMembers, Keyed.keys_of_forall₂ hsame]
    · intro key value other hvalue hother
      rw [last?_sortMembers] at hother
      exact Keyed.last?_of_forall₂ hsame hvalue hother
  · intro hmem
    obtain ⟨member, hmember, hkey⟩ := mem_memberKeys_iff.mp hmem
    exact hread (mem_memberKeys_iff.mpr ⟨member, of_mem_sortMembers hmember, hkey⟩)

/-! ## The tokens behind a state -/

/-- The tokens of items, each with its comma. -/
def commaItems (items : List Json) : List Token :=
  items.flatMap fun item => toTokens item ++ [.comma]

/-- The tokens of members, each with its comma. -/
def commaMembers (members : List (Text × Json)) : List Token :=
  members.flatMap fun member => .string member.1 :: .colon :: (toTokens member.2 ++ [.comma])

theorem commaItems_concat (items : List Json) (item : Json) :
    commaItems (items ++ [item]) = commaItems items ++ toTokens item ++ [.comma] := by
  simp [commaItems]

theorem commaMembers_concat (members : List (Text × Json)) (key : Text) (value : Json) :
    commaMembers (members ++ [(key, value)]) =
      commaMembers members ++ .string key :: .colon :: (toTokens value ++ [.comma]) := by
  simp [commaMembers]

/-- An array as it is written: the last item has no comma. -/
theorem toTokens_array_concat (items : List Json) (item : Json) :
    toTokens (.array (items ++ [item])) =
      .openArray :: (commaItems items ++ toTokens item ++ [.closeArray]) := by
  -- a comma stands between two items, so it may be counted to either of them
  have hcomma : ∀ (first : Json) (others : List Json),
      toTokens first ++ itemTokens (others ++ [item]) =
        commaItems (first :: others) ++ toTokens item := by
    intro first others
    induction others generalizing first with
    | nil => simp [itemTokens, commaItems]
    | cons next others ih =>
        rw [List.cons_append, itemTokens, ih next]
        simp [commaItems]
  cases items with
  | nil => simp [toTokens, itemTokens, commaItems]
  | cons first others => rw [List.cons_append, toTokens, hcomma]

theorem toTokens_object_concat (members : List (Text × Json)) (key : Text) (value : Json) :
    toTokens (.object (members ++ [(key, value)])) =
      .openObject :: (commaMembers members ++ .string key :: .colon ::
        (toTokens value ++ [.closeObject])) := by
  have hcomma : ∀ (first : Text × Json) (others : List (Text × Json)),
      .string first.1 :: .colon ::
          (toTokens first.2 ++ memberTokens (others ++ [(key, value)])) =
        commaMembers (first :: others) ++ .string key :: .colon :: toTokens value := by
    intro first others
    induction others generalizing first with
    | nil => simp [memberTokens, commaMembers]
    | cons next others ih =>
        obtain ⟨nextKey, nextValue⟩ := next
        rw [List.cons_append, memberTokens, ih (nextKey, nextValue)]
        simp [commaMembers]
  cases members with
  | nil => simp [toTokens, memberTokens, commaMembers]
  | cons first others =>
      obtain ⟨firstKey, firstValue⟩ := first
      have hall := congrArg (· ++ [Token.closeObject]) (hcomma (firstKey, firstValue) others)
      rw [List.cons_append, toTokens]
      simpa using hall

/-- **`Opened frames tokens`** — the tokens open these containers, and put into them what they hold;
the frames have it last first. -/
inductive Opened : List Frame → List Token → Prop
  | nil : Opened [] []
  | array {frames : List Frame} {before : List Token} {trees items : List Json}
      (houter : Opened frames before) (h : List.Forall₂ Reads trees items) :
      Opened (.array items :: frames) (before ++ .openArray :: commaItems trees.reverse)
  | object {frames : List Frame} {before : List Token} {written read : List (Text × Json)}
      (houter : Opened frames before) (h : List.Forall₂ ReadsMember written read) (key : Text) :
      Opened (.object read key :: frames)
        (before ++ .openObject :: (commaMembers written.reverse ++ [.string key, .colon]))

/-- **The invariant of the reader.** The tokens that have been read spell what the state holds. -/
inductive Covers : ReadState → List Token → Prop
  | value {frames : List Frame} {before : List Token} (h : Opened frames before) :
      Covers ⟨frames, .value⟩ before
  | firstItem {frames : List Frame} {before : List Token} (h : Opened frames before) :
      Covers ⟨.array [] :: frames, .firstItem⟩ (before ++ [.openArray])
  | firstKey {frames : List Frame} {before : List Token} (h : Opened frames before) :
      Covers ⟨frames, .firstKey⟩ (before ++ [.openObject])
  | nextKey {frames : List Frame} {before : List Token} {written read : List (Text × Json)}
      (h : Opened frames before) (hmembers : List.Forall₂ ReadsMember written read) :
      Covers ⟨frames, .nextKey read⟩ (before ++ .openObject :: commaMembers written.reverse)
  | colon {frames : List Frame} {before : List Token} {written read : List (Text × Json)}
      (h : Opened frames before) (hmembers : List.Forall₂ ReadsMember written read) (key : Text) :
      Covers ⟨frames, .colon read key⟩
        (before ++ .openObject :: (commaMembers written.reverse ++ [.string key]))
  | complete {frames : List Frame} {before : List Token} {tree value : Json}
      (h : Opened frames before) (hvalue : Reads tree value) :
      Covers ⟨frames, .complete value⟩ (before ++ toTokens tree)

theorem covers_stepValue {frames : List Frame} {before : List Token} {token : Token}
    {next : ReadState} (hopened : Opened frames before) (h : stepValue frames token = some next) :
    Covers next (before ++ [token]) := by
  unfold stepValue at h
  split at h
  · split at h
    · obtain rfl := Option.some.inj h
      exact .firstItem hopened
    · simp at h
  · split at h
    · obtain rfl := Option.some.inj h
      exact .firstKey hopened
    · simp at h
  · obtain ⟨value, hvalue, rfl⟩ := Option.map_eq_some_iff.mp h
    obtain ⟨hreads, htokens⟩ := reads_scalar hvalue
    rw [← htokens]
    exact .complete hopened hreads

theorem covers_stepComplete {frames : List Frame} {before : List Token} {tree value : Json}
    {token : Token} {next : ReadState} (hopened : Opened frames before) (hvalue : Reads tree value)
    (h : stepComplete frames value token = some next) :
    Covers next (before ++ toTokens tree ++ [token]) := by
  unfold stepComplete at h
  split at h
  · -- an item and its comma
    obtain rfl := Option.some.inj h
    cases hopened with
    | @array _ before trees _ houter hitems =>
        have hnext := Opened.array houter (.cons hvalue hitems)
        rw [List.reverse_cons, commaItems_concat] at hnext
        have hcovers := Covers.value hnext
        simpa using hcovers
  · -- the last item of an array
    obtain rfl := Option.some.inj h
    cases hopened with
    | @array _ before trees _ houter hitems =>
        have hall := reads_array (List.forall₂_reverse_iff.mpr (.cons hvalue hitems))
        have htokens := toTokens_array_concat trees.reverse tree
        rw [← List.reverse_cons] at htokens
        have hcovers := Covers.complete houter hall
        rw [htokens] at hcovers
        simpa using hcovers
  · next members key outer =>
      -- a member and its comma
      obtain rfl := Option.some.inj h
      have hmember : ReadsMember (key, tree) (key, value) := ⟨rfl, hvalue⟩
      cases hopened with
      | @object _ before written _ houter hmembers =>
          have hcovers := Covers.nextKey houter (.cons hmember hmembers)
          rw [List.reverse_cons, commaMembers_concat] at hcovers
          simpa using hcovers
  · next members key outer =>
      -- the last member of an object
      obtain ⟨object, hobject, rfl⟩ := Option.map_eq_some_iff.mp h
      have hmember : ReadsMember (key, tree) (key, value) := ⟨rfl, hvalue⟩
      cases hopened with
      | @object _ before written _ houter hmembers =>
          have hall := reads_object (List.forall₂_reverse_iff.mpr (.cons hmember hmembers)) hobject
          have htokens := toTokens_object_concat written.reverse key tree
          rw [← List.reverse_cons] at htokens
          have hcovers := Covers.complete houter hall
          rw [htokens] at hcovers
          simpa using hcovers
  · simp at h

/-- **One token keeps the invariant.** -/
theorem covers_step {state next : ReadState} {before : List Token} {token : Token}
    (hcovers : Covers state before) (h : step state token = some next) :
    Covers next (before ++ [token]) := by
  unfold step at h
  cases hcovers with
  | value hopened => exact covers_stepValue hopened h
  | @firstItem _ before hopened =>
      dsimp only at h
      split at h
      any_goals contradiction
      · obtain rfl := Option.some.inj h
        rw [List.append_assoc]
        exact .complete hopened (reads_array .nil)
      · exact covers_stepValue (.array hopened .nil) h
  | @firstKey _ before hopened =>
      dsimp only at h
      split at h
      any_goals contradiction
      · obtain rfl := Option.some.inj h
        rw [List.append_assoc]
        exact .complete hopened (reads_object .nil rfl)
      · obtain rfl := Option.some.inj h
        rw [List.append_assoc]
        exact .colon hopened .nil _
  | @nextKey _ before written _ hopened hmembers =>
      dsimp only at h
      split at h
      any_goals contradiction
      · next heq =>
          cases heq
          obtain rfl := Option.some.inj h
          rw [List.append_assoc]
          exact .colon hopened hmembers _
  | @colon _ before written _ hopened hmembers key =>
      dsimp only at h
      split at h
      any_goals contradiction
      · next heq =>
          cases heq
          obtain rfl := Option.some.inj h
          have hnext := Covers.value (.object hopened hmembers key)
          simpa using hnext
  | complete hopened hvalue => exact covers_stepComplete hopened hvalue h

/-- **Every state that is reached is covered** by the tokens that lead to it. -/
theorem covers_run {tokens before : List Token} {state final : ReadState}
    (hcovers : Covers state before) (h : run state tokens = some final) :
    Covers final (before ++ tokens) := by
  induction tokens generalizing state before with
  | nil =>
      obtain rfl := Option.some.inj h
      rwa [List.append_nil]
  | cons token tokens ih =>
      rw [run_cons] at h
      obtain ⟨next, hnext, hrest⟩ := Option.bind_eq_some_iff.mp h
      have hall := ih (covers_step hcovers hnext) hrest
      rwa [List.append_assoc, List.singleton_append] at hall

/-- **What is read from a text is the value of the tree that the text spells.** -/
theorem exists_spells_of_ofText? {text : Text} {value : Json} (h : ofText? text = some value) :
    ∃ tree, Spells text tree ∧ Reads tree value := by
  obtain ⟨tokens, htokens, hread⟩ := Option.bind_eq_some_iff.mp h
  obtain ⟨final, hrun, hresult⟩ := Option.bind_eq_some_iff.mp hread
  have hcovers := covers_run (.value .nil) hrun
  unfold ReadState.result? at hresult
  split at hresult
  · obtain rfl := Option.some.inj hresult
    generalize hbefore : [] ++ tokens = before at hcovers
    cases hcovers with
    | @complete _ _ tree _ hopened hvalue =>
        cases hopened
        refine ⟨tree, ?_, hvalue⟩
        rw [List.nil_append, List.nil_append] at hbefore
        exact spells_iff.mpr (hbefore ▸ htokens)
  · simp at hresult

end PlainRequest.Json
