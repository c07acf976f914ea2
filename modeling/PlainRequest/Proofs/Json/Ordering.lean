/-
# PlainRequest.Proofs.Json.Ordering — the order of members does not matter, and comes out sorted

What a tree means does not change when the members of an object are written in another order, if no
key appears among them twice: they are read one by one, and the object sorts them. So a text that is
laid out in another way, with its members in another order, at any depth, comes out as the same one.
In what comes out the keys of every object increase, by the bytes of UTF-8, since that is the order
of their characters.
-/

import PlainRequest.Proofs.Json.Meaning
import PlainRequest.Proofs.Text.ByteOrder
import Mathlib.Data.List.Perm.Basic

namespace PlainRequest.Json

open Text

/-! ## Values within a value -/

/-- **`Within inner value`** — the value itself, or one that stands within it, at any depth. -/
inductive Within : Json → Json → Prop
  | self (value : Json) : Within value value
  | item {inner item : Json} {items : List Json} (hmem : item ∈ items) (h : Within inner item) :
      Within inner (.array items)
  | member {inner : Json} {member : Text × Json} {members : List (Text × Json)}
      (hmem : member ∈ members) (h : Within inner member.2) : Within inner (.object members)

theorem Within.readable {inner value : Json} (h : Within inner value) {depth : Nat}
    (hvalue : Readable depth value) : ∃ room, Readable room inner := by
  induction h generalizing depth with
  | self => exact ⟨depth, hvalue⟩
  | item hmem _ ih =>
      cases hvalue with
      | array hitems => exact ih (hitems _ hmem)
  | member hmem _ ih =>
      cases hvalue with
      | object _ hmembers => exact ih (hmembers _ hmem)

/-- **Every object of a value that was read is in order**, by the bytes of the keys. -/
theorem Within.increasing {members : List (Text × Json)} {value : Json}
    (h : Within (.object members) value) {depth : Nat} (hvalue : Readable depth value) :
    (members.map fun member => toUtf8 member.1).Pairwise (· < ·) := by
  obtain ⟨room, hreadable⟩ := h.readable hvalue
  cases hreadable with
  | object hsorted _ =>
      have hbytes := List.Pairwise.map toUtf8 (fun _ _ => toUtf8_lt_toUtf8) hsorted
      rwa [List.map_map] at hbytes

/-! ## Members in another order -/

/-- **`Rearranged tree other`** — the same tree but for the order of members, in objects in which no
key appears twice, at any depth. -/
inductive Rearranged : Json → Json → Prop
  | refl (tree : Json) : Rearranged tree tree
  | trans {tree middle other : Json} (h : Rearranged tree middle)
      (hrest : Rearranged middle other) : Rearranged tree other
  | members {members others : List (Text × Json)} (hkeys : (members.map Prod.fst).Nodup)
      (h : members.Perm others) : Rearranged (.object members) (.object others)
  | item {tree other : Json} (before after : List Json) (h : Rearranged tree other) :
      Rearranged (.array (before ++ tree :: after)) (.array (before ++ other :: after))
  | member {tree other : Json} (before after : List (Text × Json)) (key : Text)
      (h : Rearranged tree other) :
      Rearranged (.object (before ++ (key, tree) :: after))
        (.object (before ++ (key, other) :: after))

/-- A tree that is rearranged has the same keys. -/
theorem Rearranged.mem_keys_iff {tree other : Json} (h : Rearranged tree other) (key : Text) :
    key ∈ keys tree ↔ key ∈ keys other := by
  induction h with
  | refl tree => exact Iff.rfl
  | trans _ _ ih ihrest => exact ih.trans ihrest
  | members _ hperm =>
      rw [keys, keys, mem_memberKeys_iff, mem_memberKeys_iff]
      simp only [hperm.mem_iff]
  | item before after _ ih =>
      rw [keys, keys, mem_itemKeys_iff, mem_itemKeys_iff]
      simp only [List.mem_append, List.mem_cons, or_and_right, exists_or, exists_eq_left, ih]
  | member before after k _ ih =>
      rw [keys, keys, mem_memberKeys_iff, mem_memberKeys_iff]
      simp only [List.mem_append, List.mem_cons, or_and_right, exists_or, exists_eq_left, ih]

/-- **Sorting depends on the last values only.** -/
theorem sortMembers_eq_of_last? {members others : List (Text × Json)}
    (h : ∀ key, Keyed.last? key members = Keyed.last? key others) :
    sortMembers members = sortMembers others := by
  have hmem : ∀ (entries : List (Text × Json)) (member : Text × Json),
      member ∈ sortMembers entries ↔ Keyed.last? member.1 entries = some member.2 := by
    rintro entries ⟨key, value⟩
    have hnodup := nodup_of_sortedKeys (sortedKeys_sortMembers entries)
    rw [← Keyed.get?_eq_some_iff hnodup, Keyed.get?_eq_last? hnodup, last?_sortMembers]
  have hsorted := List.pairwise_map.mp (sortedKeys_sortMembers members)
  have hsorted' := List.pairwise_map.mp (sortedKeys_sortMembers others)
  have : Std.Irrefl fun a b : Text × Json => a.1 < b.1 := ⟨fun a => List.lt_irrefl a.1⟩
  have : Std.Antisymm fun a b : Text × Json => a.1 < b.1 :=
    ⟨fun a b hab hba => absurd hba (List.lt_asymm hab)⟩
  apply hsorted.eq_of_mem_iff hsorted'
  intro member
  rw [hmem, hmem, h]

/-- So members that are read in another order are the same object. -/
theorem ofMembers?_of_perm {members others : List (Text × Json)}
    (hkeys : (members.map Prod.fst).Nodup) (hmark : numberKey ∉ members.map Prod.fst)
    (h : members.Perm others) : ofMembers? members = ofMembers? others := by
  have hne : ∀ member ∈ members, member.1 ≠ numberKey := by
    intro member hmem heq
    exact hmark (heq ▸ List.mem_map_of_mem hmem)
  have hne' : ∀ member ∈ others, member.1 ≠ numberKey := fun member hmem =>
    hne member (h.mem_iff.mpr hmem)
  have hsorted : sortMembers members = sortMembers others :=
    sortMembers_eq_of_last? fun key => Keyed.last?_of_perm hkeys h key
  rw [ofMembers?_of_ne hne, ofMembers?_of_ne hne', hsorted]

/-! ## What a rearranged tree means -/

/-- In place of one entry another stands. -/
theorem forall₂_replace {α β : Type} {R : α → β → Prop} {before after : List α} {a a' : α}
    {values : List β} (h : List.Forall₂ R (before ++ a :: after) values)
    (hreplace : ∀ b, R a b → R a' b) : List.Forall₂ R (before ++ a' :: after) values := by
  induction before generalizing values with
  | nil =>
      cases h with
      | cons hfirst hrest => exact .cons (hreplace _ hfirst) hrest
  | cons first before ih =>
      cases h with
      | cons hfirst hrest => exact .cons hfirst (ih hrest)

/-- **A tree that is rearranged means the same.** -/
theorem Rearranged.meaning?_eq {tree other : Json} (h : Rearranged tree other)
    (hkeys : numberKey ∉ keys tree) {room : Nat} {value : Json}
    (hvalue : meaning? room tree = some value) : meaning? room other = some value := by
  induction h generalizing room value with
  | refl tree => exact hvalue
  | trans hfirst _ ih ihrest =>
      have hmiddle := mt (hfirst.mem_keys_iff numberKey).mpr hkeys
      exact ihrest hmiddle (ih hkeys hvalue)
  | @members members others hnodup hperm =>
      cases room with
      | zero => cases hvalue
      | succ room =>
          obtain ⟨values, hvalues, hobject⟩ := Option.bind_eq_some_iff.mp hvalue
          have hread := memberMeanings?_eq_some_iff.mp hvalues
          -- the members are read one by one, so their values are rearranged as they are
          obtain ⟨values', hread', hperm'⟩ := List.perm_comp_forall₂ hperm.symm hread
          have hnames : members.map Prod.fst = values.map Prod.fst :=
            Keyed.keys_of_forall₂ (R := fun tree v => meaning? room tree = some v) hread
          have hmark : numberKey ∉ members.map Prod.fst := by
            intro hmem
            obtain ⟨member, hmember, heq⟩ := List.mem_map.mp hmem
            exact hkeys (heq ▸ (keys_of_mem_members hmember).1)
          rw [hnames] at hnodup hmark
          rw [meaning?, memberMeanings?_eq_some_iff.mpr hread', Option.bind_some,
            ← ofMembers?_of_perm hnodup hmark hperm'.symm, hobject]
  | @item tree other before after _ ih =>
      cases room with
      | zero => cases hvalue
      | succ room =>
          obtain ⟨values, hvalues, rfl⟩ := Option.map_eq_some_iff.mp hvalue
          have htree : numberKey ∉ keys tree := by
            intro hmem
            exact hkeys (keys_of_mem_items (by simp) hmem)
          have hothers : itemMeanings? room (before ++ other :: after) = some values := by
            have hread := itemMeanings?_eq_some_iff.mp hvalues
            exact itemMeanings?_eq_some_iff.mpr (forall₂_replace hread fun _ => ih htree)
          rw [meaning?, hothers, Option.map_some]
  | @member tree other before after key _ ih =>
      cases room with
      | zero => cases hvalue
      | succ room =>
          obtain ⟨values, hvalues, hobject⟩ := Option.bind_eq_some_iff.mp hvalue
          have htree : numberKey ∉ keys tree := by
            intro hmem
            exact hkeys (mem_memberKeys_iff.mpr ⟨(key, tree), by simp, .inr hmem⟩)
          have hothers : memberMeanings? room (before ++ (key, other) :: after) = some values := by
            have hread := memberMeanings?_eq_some_iff.mp hvalues
            exact memberMeanings?_eq_some_iff.mpr
              (forall₂_replace hread fun _ h => ⟨h.1, ih htree h.2⟩)
          rw [meaning?, hothers, Option.bind_some, hobject]

/-! ## What comes out -/

/-- **Reformatting sorts every object and forgets the order of members.** What comes out has the
value of the text, its arrays in their order, and in every object of it, at any depth, the keys
increase strictly by the bytes of UTF-8. A text that spells the same tree with its members
rearranged comes out as the same text. -/
theorem reformat?_ordered {text : Text} (style : Style)
    (hkeys : ∀ tree, Spells text tree → numberKey ∉ keys tree) :
    ∀ out, reformat? style text = some out →
      (∃ tree value, (∀ spelled, Spells text spelled ↔ spelled = tree) ∧
        (∀ spelled, Spells out spelled ↔ spelled = value) ∧ SameValue tree value ∧
        ∀ members, Within (.object members) value →
          (members.map fun member => toUtf8 member.1).Pairwise (· < ·)) ∧
      ∀ other tree rearranged, Spells text tree → Spells other rearranged →
        Rearranged tree rearranged → reformat? style other = some out := by
  intro out hout
  obtain ⟨value, hvalue, rfl⟩ := Option.map_eq_some_iff.mp hout
  have hreadable := readable_of_ofText? hvalue
  constructor
  · obtain ⟨tree, htree, hreads⟩ := exists_spells_of_ofText? hvalue
    obtain ⟨hsame, -⟩ := hreads (hkeys tree htree)
    have hspells := spells_write style hreadable
    exact ⟨tree, value, htree.iff_eq, hspells.iff_eq, hsame, fun _ h => h.increasing hreadable⟩
  · intro other tree rearranged htree hother h
    rw [htree.ofText?_eq] at hvalue
    rw [reformat?, hother.ofText?_eq, h.meaning?_eq (hkeys tree htree) hvalue]
    rfl

/-- An object within an object, both rearranged. Of the outer keys the one past U+FFFF comes last by
bytes, and would come first by code units. -/
theorem reformat?_ordered_nested :
    (∀ tree, Spells "\x7b\"😀\":[],\"｡\":\x7b\"b\":0,\"a\":1\x7d\x7d".toList tree →
        numberKey ∉ keys tree) ∧
      reformat? ⟨1, false⟩ "\x7b\"😀\":[],\"｡\":\x7b\"b\":0,\"a\":1\x7d\x7d".toList =
        some "\x7b\n \"｡\": \x7b\n  \"a\": 1,\n  \"b\": 0\n \x7d,\n \"😀\": []\n\x7d".toList ∧
      reformat? ⟨1, false⟩ "\x7b \"\\uff61\" :\x7b\"a\":1, \"b\":0\x7d,\"😀\":[\n]\x7d".toList =
        some "\x7b\n \"｡\": \x7b\n  \"a\": 1,\n  \"b\": 0\n \x7d,\n \"😀\": []\n\x7d".toList := by
  have htree : Spells "\x7b\"😀\":[],\"｡\":\x7b\"b\":0,\"a\":1\x7d\x7d".toList
      (.object [(['😀'], .array []),
        (['｡'], .object [(['b'], .number ['0']), (['a'], .number ['1'])])]) :=
    spells_iff.mpr (by decide +kernel)
  have hother : Spells "\x7b \"\\uff61\" :\x7b\"a\":1, \"b\":0\x7d,\"😀\":[\n]\x7d".toList
      (.object [(['｡'], .object [(['a'], .number ['1']), (['b'], .number ['0'])]),
        (['😀'], .array [])]) :=
    spells_iff.mpr (by decide +kernel)
  have hkeys : ∀ tree, Spells "\x7b\"😀\":[],\"｡\":\x7b\"b\":0,\"a\":1\x7d\x7d".toList tree →
      numberKey ∉ keys tree := by
    intro tree hspells
    obtain rfl := (htree.iff_eq tree).mp hspells
    decide
  have hout : reformat? ⟨1, false⟩ "\x7b\"😀\":[],\"｡\":\x7b\"b\":0,\"a\":1\x7d\x7d".toList =
      some "\x7b\n \"｡\": \x7b\n  \"a\": 1,\n  \"b\": 0\n \x7d,\n \"😀\": []\n\x7d".toList := by
    rw [reformat?, htree.ofText?_eq]
    decide +kernel
  have hinner : Rearranged (.object [(['b'], .number ['0']), (['a'], .number ['1'])])
      (.object [(['a'], .number ['1']), (['b'], .number ['0'])]) :=
    .members (by decide) (.swap _ _ _)
  have houter := Rearranged.trans (.member [(['😀'], .array [])] [] ['｡'] hinner)
    (.members (by decide) (.swap _ _ _))
  obtain ⟨-, hsame⟩ := reformat?_ordered ⟨1, false⟩ hkeys _ hout
  exact ⟨hkeys, hout, hsame _ _ _ htree hother houter⟩

end PlainRequest.Json
