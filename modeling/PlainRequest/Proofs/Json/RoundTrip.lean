/-
# PlainRequest.Proofs.Json.RoundTrip — a value that is written is read back

The printer and the reader meet in the tokens of a value. What the printer writes has these tokens,
in every style and at every depth. What the reader makes of the tokens of any tree is `meaning?`, no
more and no less, and a value of the normal form of `Readable` means itself. So it is read back, if
no object in it has the key that marks a number, which would be read as the number or refused.
-/

import PlainRequest.Json.Printer
import PlainRequest.Proofs.Json.Tokens
import PlainRequest.Proofs.Json.Values
import Mathlib.Data.List.Forall2

namespace PlainRequest.Json

open Text

/-! ## The tokens of a value -/

mutual

/-- The tokens that spell a value. -/
def toTokens : Json → List Token
  | .null => [.null]
  | .bool value => [.bool value]
  | .number spelling => [.number spelling]
  | .string text => [.string text]
  | .array [] => [.openArray, .closeArray]
  | .array (item :: items) => .openArray :: (toTokens item ++ itemTokens items ++ [.closeArray])
  | .object [] => [.openObject, .closeObject]
  | .object ((key, value) :: members) =>
      .openObject :: .string key :: .colon ::
        (toTokens value ++ memberTokens members ++ [.closeObject])

/-- The tokens of the items behind the first. -/
def itemTokens : List Json → List Token
  | [] => []
  | item :: items => .comma :: (toTokens item ++ itemTokens items)

/-- The tokens of the members behind the first. -/
def memberTokens : List (Text × Json) → List Token
  | [] => []
  | (key, value) :: members =>
      .comma :: .string key :: .colon :: (toTokens value ++ memberTokens members)

end

/-! ## What is written has the tokens of the value -/

-- Stated by `show`, since the equation lemmas of `write` are slow to make.
theorem write_array_cons (style : Style) (depth : Nat) (item : Json) (items : List Json) :
    write style depth (.array (item :: items)) =
      '[' :: (newline style (depth + 1) ++ (write style (depth + 1) item
        ++ (writeItems style (depth + 1) items ++ (newline style depth ++ [']'])))) := by
  show ['['] ++ newline style (depth + 1) ++ write style (depth + 1) item
    ++ writeItems style (depth + 1) items ++ newline style depth ++ [']'] = _
  simp only [List.append_assoc, List.cons_append, List.nil_append]

theorem write_object_cons (style : Style) (depth : Nat) (key : Text) (value : Json)
    (members : List (Text × Json)) :
    write style depth (.object ((key, value) :: members)) =
      '{' :: (newline style (depth + 1) ++ (writeString style.escapeNonAscii key ++ (": ".toList
        ++ (write style (depth + 1) value
        ++ (writeMembers style (depth + 1) members ++ (newline style depth ++ ['}'])))))) := by
  show ['{'] ++ newline style (depth + 1) ++ writeString style.escapeNonAscii key ++ ": ".toList
    ++ write style (depth + 1) value ++ writeMembers style (depth + 1) members
    ++ newline style depth ++ ['}'] = _
  simp only [List.append_assoc, List.cons_append, List.nil_append]

theorem writeItems_cons (style : Style) (depth : Nat) (item : Json) (items : List Json) :
    writeItems style depth (item :: items) =
      ',' :: (newline style depth ++ (write style depth item ++ writeItems style depth items)) := by
  show [','] ++ newline style depth ++ write style depth item ++ writeItems style depth items = _
  simp only [List.append_assoc, List.cons_append, List.nil_append]

theorem writeMembers_cons (style : Style) (depth : Nat) (key : Text) (value : Json)
    (members : List (Text × Json)) :
    writeMembers style depth ((key, value) :: members) =
      ',' :: (newline style depth ++ (writeString style.escapeNonAscii key ++ (": ".toList
        ++ (write style depth value ++ writeMembers style depth members)))) := by
  show [','] ++ newline style depth ++ writeString style.escapeNonAscii key ++ ": ".toList
    ++ write style depth value ++ writeMembers style depth members = _
  simp only [List.append_assoc, List.cons_append, List.nil_append]

theorem next?_mark {c : Char} {token : Token} (h : mark? c = some token) (rest : Text) :
    next? (c :: rest) = some (token, rest) := by
  simp only [next?, h]

theorem tokens?_mark {c : Char} {token : Token} (h : mark? c = some token) (rest : Text) :
    tokens? (c :: rest) = (tokens? rest).map (token :: ·) :=
  tokens?_of_next? (next?_mark h rest)

theorem tokens?_newline (style : Style) (depth : Nat) (rest : Text) :
    tokens? (newline style depth ++ rest) = tokens? rest := by
  rw [newline, List.cons_append, tokens?_gap rfl]
  induction style.indent * depth with
  | zero => rfl
  | succ n ih =>
      rw [List.replicate_succ, List.cons_append, tokens?_gap rfl]
      exact ih

/-- Behind a quotation mark, the token is a string. -/
theorem next?_quote {text left rest : Text} (h : readString? .plain rest = some (text, left)) :
    next? ('"' :: rest) = some (.string text, left) := by
  show Option.map _ (readString? .plain rest) = _
  rw [h]
  rfl

theorem tokens?_writeString (escapeNonAscii : Bool) (text rest : Text) :
    tokens? (writeString escapeNonAscii text ++ rest) =
      (tokens? rest).map (.string text :: ·) := by
  have hread := readString?_written escapeNonAscii text rest
  apply tokens?_of_next?
  simp only [writeString, List.append_assoc, List.cons_append, List.nil_append]
  exact next?_quote hread

/-- The key of a member and the colon behind it. -/
theorem tokens?_writeKey (escapeNonAscii : Bool) (key rest : Text) :
    tokens? (writeString escapeNonAscii key ++ (": ".toList ++ rest)) =
      (tokens? rest).map fun tokens => .string key :: .colon :: tokens := by
  have hcolon : tokens? (": ".toList ++ rest) = (tokens? rest).map (.colon :: ·) := by
    show tokens? (':' :: ' ' :: rest) = _
    rw [tokens?_mark (c := ':') rfl, tokens?_gap rfl]
  rw [tokens?_writeString, hcolon, Option.map_map]
  rfl

/-- The characters of numbers begin no mark, no word and no string, so the token is a number. -/
theorem next?_number {c : Char} {spelling left rest : Text} (hc : isNumberChar c = true)
    (h : readNumber? (c :: rest) = some (spelling, left)) :
    next? (c :: rest) = some (.number spelling, left) := by
  have hclass : "0123456789.eE+-".toList.all
      (fun d => (mark? d).isNone && (word? d).isNone && d != '"') = true := by decide
  have hc := List.all_eq_true.mp hclass c (mem_of_isNumberChar hc)
  simp only [Bool.and_eq_true, Option.isNone_iff_eq_none, bne_iff_ne] at hc
  obtain ⟨⟨hmark, hword⟩, hquote⟩ := hc
  simp only [next?, hmark, hword, if_neg hquote, h, Option.map_some]

theorem tokens?_numeral {spelling more : Text} (h : IsNumeral spelling) (hends : EndsNumbers more) :
    tokens? (spelling ++ more) = (tokens? more).map (.number spelling :: ·) := by
  obtain ⟨hne, hall⟩ := h.chars
  apply tokens?_of_next?
  have hread := h.read hends
  cases spelling with
  | nil => exact absurd rfl hne
  | cons c digits => exact next?_number (hall c (by simp)) hread

/-- No number goes on into a line that is begun. -/
theorem endsNumbers_of_newline (style : Style) (depth : Nat) (rest : Text) :
    EndsNumbers (newline style depth ++ rest) :=
  endsNumbers_cons rfl _

/-- **`Writes style value`** — written at any depth, the value has its tokens. -/
def Writes (style : Style) (value : Json) : Prop :=
  ∀ (depth : Nat) (more : Text), EndsNumbers more →
    tokens? (write style depth value ++ more) = (tokens? more).map (toTokens value ++ ·)

theorem endsNumbers_writeItems (style : Style) (depth : Nat) (items : List Json) {more : Text}
    (hends : EndsNumbers more) : EndsNumbers (writeItems style depth items ++ more) := by
  cases items with
  | nil => exact hends
  | cons item items =>
      rw [writeItems_cons]
      exact endsNumbers_cons rfl _

theorem endsNumbers_writeMembers (style : Style) (depth : Nat) (members : List (Text × Json))
    {more : Text} (hends : EndsNumbers more) :
    EndsNumbers (writeMembers style depth members ++ more) := by
  cases members with
  | nil => exact hends
  | cons member members =>
      rw [writeMembers_cons]
      exact endsNumbers_cons rfl _

theorem tokens?_writeItems {style : Style} {items : List Json}
    (h : ∀ item ∈ items, Writes style item) (depth : Nat) {more : Text}
    (hends : EndsNumbers more) :
    tokens? (writeItems style depth items ++ more) =
      (tokens? more).map (itemTokens items ++ ·) := by
  induction items with
  | nil =>
      show tokens? more = (tokens? more).map fun tokens => [] ++ tokens
      simp
  | cons item items ih =>
      have hfirst := h item (by simp)
      have hrest := ih fun other hmem => h other (List.mem_cons_of_mem _ hmem)
      rw [writeItems_cons, itemTokens, List.cons_append, List.append_assoc, List.append_assoc,
        tokens?_mark (c := ',') rfl, tokens?_newline,
        hfirst depth _ (endsNumbers_writeItems style depth items hends), hrest]
      simp [Option.map_map, Function.comp_def]

theorem tokens?_writeMembers {style : Style} {members : List (Text × Json)}
    (h : ∀ member ∈ members, Writes style member.2) (depth : Nat) {more : Text}
    (hends : EndsNumbers more) :
    tokens? (writeMembers style depth members ++ more) =
      (tokens? more).map (memberTokens members ++ ·) := by
  induction members with
  | nil =>
      show tokens? more = (tokens? more).map fun tokens => [] ++ tokens
      simp
  | cons member members ih =>
      obtain ⟨key, value⟩ := member
      have hfirst := h (key, value) (by simp)
      have hrest := ih fun other hmem => h other (List.mem_cons_of_mem _ hmem)
      rw [writeMembers_cons, memberTokens]
      simp only [List.cons_append, List.append_assoc]
      rw [tokens?_mark (c := ',') rfl, tokens?_newline, tokens?_writeKey,
        hfirst depth _ (endsNumbers_writeMembers style depth members hends), hrest]
      simp [Option.map_map, Function.comp_def]

/-- **What is written has the tokens of the value**, in every style and at every depth. -/
theorem writes_of_readable (style : Style) {depth : Nat} {value : Json} (h : Readable depth value) :
    Writes style value := by
  induction h with
  | null =>
      intro depth more hends
      have hnext : next? ("null".toList ++ more) = some (.null, more) := rfl
      exact tokens?_of_next? hnext
  | bool value =>
      intro depth more hends
      cases value with
      | true =>
          have hnext : next? ("true".toList ++ more) = some (.bool true, more) := rfl
          exact tokens?_of_next? hnext
      | false =>
          have hnext : next? ("false".toList ++ more) = some (.bool false, more) := rfl
          exact tokens?_of_next? hnext
  | number hspelling =>
      intro depth more hends
      exact tokens?_numeral hspelling hends
  | string text =>
      intro depth more hends
      exact tokens?_writeString style.escapeNonAscii text more
  | @array _ items _ ih =>
      intro depth more hends
      cases items with
      | nil =>
          show tokens? ('[' :: ']' :: more) = _
          rw [tokens?_mark (c := '[') rfl, tokens?_mark (c := ']') rfl, Option.map_map]
          rfl
      | cons item items =>
          have hfirst := ih item (by simp)
          have hrest := tokens?_writeItems (fun other hmem => ih other (List.mem_cons_of_mem _ hmem))
            (depth + 1) (endsNumbers_of_newline style depth (']' :: more))
          have hends' := endsNumbers_writeItems style (depth + 1) items
            (endsNumbers_of_newline style depth (']' :: more))
          rw [write_array_cons, toTokens]
          simp only [List.append_assoc, List.cons_append, List.nil_append]
          rw [tokens?_mark (c := '[') rfl, tokens?_newline, hfirst (depth + 1) _ hends', hrest,
            tokens?_newline, tokens?_mark (c := ']') rfl]
          simp [Option.map_map, Function.comp_def]
  | @object _ members _ _ ih =>
      intro depth more hends
      cases members with
      | nil =>
          show tokens? ('{' :: '}' :: more) = _
          rw [tokens?_mark (c := '{') rfl, tokens?_mark (c := '}') rfl, Option.map_map]
          rfl
      | cons member members =>
          obtain ⟨key, value⟩ := member
          have hfirst := ih (key, value) (by simp)
          have hrest := tokens?_writeMembers
            (fun other hmem => ih other (List.mem_cons_of_mem _ hmem)) (depth + 1)
            (endsNumbers_of_newline style depth ('}' :: more))
          have hends' := endsNumbers_writeMembers style (depth + 1) members
            (endsNumbers_of_newline style depth ('}' :: more))
          rw [write_object_cons, toTokens]
          simp only [List.append_assoc, List.cons_append, List.nil_append]
          rw [tokens?_mark (c := '{') rfl, tokens?_newline, tokens?_writeKey,
            hfirst (depth + 1) _ hends', hrest, tokens?_newline, tokens?_mark (c := '}') rfl]
          simp [Option.map_map, Function.comp_def]

/-! ## What a tree is read as -/

mutual

/-- **`meaning? room tree`** — what a tree is read as where `room` more containers may be opened. -/
def meaning? : Nat → Json → Option Json
  | room + 1, .array items => (itemMeanings? room items).map .array
  | room + 1, .object members => (memberMeanings? room members).bind ofMembers?
  | 0, .array _ | 0, .object _ => none
  | _, value => some value

/-- What the items of an array are read as, if all are read. -/
def itemMeanings? (room : Nat) : List Json → Option (List Json)
  | [] => some []
  | item :: items =>
      (meaning? room item).bind fun value => (itemMeanings? room items).map (value :: ·)

/-- What members are read as, in the order in which they are written. -/
def memberMeanings? (room : Nat) : List (Text × Json) → Option (List (Text × Json))
  | [] => some []
  | (key, tree) :: members =>
      (meaning? room tree).bind fun value => (memberMeanings? room members).map ((key, value) :: ·)

end

/-- No text, no value. -/
theorem ofText?_nil : ofText? [] = none := by
  rw [ofText?, tokens?_nil]
  rfl

/-- The first item of an array is read as any other: no value begins with the end of an array. -/
theorem run_firstItem (frames : List Frame) (value : Json) (rest : List Token) :
    run ⟨frames, .firstItem⟩ (toTokens value ++ rest) =
      run ⟨frames, .value⟩ (toTokens value ++ rest) := by
  cases value with
  | null | bool | number | string => rfl
  | array items => cases items <;> rfl
  | object members => cases members <;> rfl

/-- A container is opened where there is room for it. -/
theorem bind_room {frames : List Frame} {room : Nat} (hroom : frames.length + room = maxDepth)
    (state : ReadState) (next : ReadState → Option ReadState) :
    (if frames.length < maxDepth then some state else none).bind next =
      if room = 0 then none else next state := by
  by_cases hnone : room = 0
  · have hfull : ¬ frames.length < maxDepth := by omega
    rw [if_neg hfull, if_pos hnone]
    rfl
  · have hopen : frames.length < maxDepth := by omega
    rw [if_pos hopen, if_neg hnone]
    rfl

theorem run_openArray {frames : List Frame} {room : Nat} (hroom : frames.length + room = maxDepth)
    (tokens : List Token) :
    run ⟨frames, .value⟩ (.openArray :: tokens) =
      if room = 0 then none else run ⟨.array [] :: frames, .firstItem⟩ tokens :=
  bind_room hroom ⟨.array [] :: frames, .firstItem⟩ fun next => run next tokens

theorem run_openObject {frames : List Frame} {room : Nat} (hroom : frames.length + room = maxDepth)
    (tokens : List Token) :
    run ⟨frames, .value⟩ (.openObject :: tokens) =
      if room = 0 then none else run ⟨frames, .firstKey⟩ tokens :=
  bind_room hroom ⟨frames, .firstKey⟩ fun next => run next tokens

mutual

/-- **The reader gives a tree its meaning**, whatever follows. -/
theorem run_toTokens (tree : Json) {frames : List Frame} {room : Nat}
    (hroom : frames.length + room = maxDepth) (rest : List Token) :
    run ⟨frames, .value⟩ (toTokens tree ++ rest) =
      (meaning? room tree).bind fun value => run ⟨frames, .complete value⟩ rest := by
  cases tree with
  | null | bool | number | string => cases room <;> rfl
  | array items =>
      cases items with
      | nil =>
          rw [toTokens, List.cons_append, run_openArray hroom]
          cases room <;> rfl
      | cons item items =>
          rw [toTokens, List.cons_append, run_openArray hroom]
          cases room with
          | zero => rfl
          | succ room =>
              have hinner : (Frame.array [] :: frames).length + room = maxDepth := by
                rw [List.length_cons]
                omega
              rw [if_neg (Nat.succ_ne_zero room), List.append_assoc, List.append_assoc,
                List.singleton_append, run_firstItem, run_toTokens item hinner, meaning?,
                itemMeanings?, Option.map_bind, Option.bind_assoc]
              congr 1
              funext value
              rw [run_itemTokens items [] value hinner, Function.comp_apply, Option.map_map,
                Option.bind_map]
              rfl
  | object members =>
      cases members with
      | nil =>
          rw [toTokens, List.cons_append, run_openObject hroom]
          cases room <;> rfl
      | cons member members =>
          obtain ⟨key, tree⟩ := member
          rw [toTokens, List.cons_append, run_openObject hroom]
          cases room with
          | zero => rfl
          | succ room =>
              have hinner : (Frame.object [] key :: frames).length + room = maxDepth := by
                rw [List.length_cons]
                omega
              rw [if_neg (Nat.succ_ne_zero room), List.cons_append, List.cons_append,
                List.append_assoc, List.append_assoc, List.singleton_append]
              show run ⟨.object [] key :: frames, .value⟩ _ = _
              rw [run_toTokens tree hinner, meaning?, memberMeanings?, Option.bind_assoc,
                Option.bind_assoc]
              congr 1
              funext value
              rw [run_memberTokens members [] key value hinner, Option.bind_map]
              rfl

/-- The items behind one that is complete, and the end of the array. -/
theorem run_itemTokens (items : List Json) (read : List Json) (value : Json)
    {outer : List Frame} {room : Nat} (hroom : outer.length + 1 + room = maxDepth)
    (rest : List Token) :
    run ⟨.array read :: outer, .complete value⟩ (itemTokens items ++ .closeArray :: rest) =
      (itemMeanings? room items).bind fun values =>
        run ⟨outer, .complete (.array (read.reverse ++ value :: values))⟩ rest := by
  -- the items read so far stand in the frame, the last first
  cases items with
  | nil =>
      show run ⟨outer, .complete (.array (value :: read).reverse)⟩ rest =
        run ⟨outer, .complete (.array (read.reverse ++ [value]))⟩ rest
      rw [List.reverse_cons]
  | cons item items =>
      rw [itemTokens, List.cons_append, List.append_assoc]
      show run ⟨.array (value :: read) :: outer, .value⟩ _ = _
      rw [run_toTokens item hroom, itemMeanings?, Option.bind_assoc]
      congr 1
      funext next
      rw [run_itemTokens items (value :: read) next hroom, Option.bind_map, List.reverse_cons]
      simp only [Function.comp_def, List.append_assoc, List.singleton_append]

/-- The members behind one that is complete, and the end of the object. -/
theorem run_memberTokens (members : List (Text × Json)) (read : List (Text × Json)) (key : Text)
    (value : Json) {outer : List Frame} {room : Nat}
    (hroom : outer.length + 1 + room = maxDepth) (rest : List Token) :
    run ⟨.object read key :: outer, .complete value⟩
        (memberTokens members ++ .closeObject :: rest) =
      (memberMeanings? room members).bind fun others =>
        (ofMembers? (read.reverse ++ (key, value) :: others)).bind fun object =>
          run ⟨outer, .complete object⟩ rest := by
  cases members with
  | nil =>
      show ((ofMembers? ((key, value) :: read).reverse).map fun object =>
        ReadState.mk outer (.complete object)).bind _ = _
      rw [List.reverse_cons, Option.bind_map]
      rfl
  | cons member members =>
      obtain ⟨nextKey, tree⟩ := member
      rw [memberTokens, List.cons_append, List.cons_append, List.cons_append, List.append_assoc]
      show run ⟨.object ((key, value) :: read) nextKey :: outer, .value⟩ _ = _
      rw [run_toTokens tree hroom, memberMeanings?, Option.bind_assoc]
      congr 1
      funext next
      rw [run_memberTokens members ((key, value) :: read) nextKey next hroom, Option.bind_map,
        List.reverse_cons]
      simp only [Function.comp_def, List.append_assoc, List.singleton_append]

end

/-- Members make an object, in the order of their keys, if none has the key that marks a number. -/
theorem ofMembers?_of_ne {members : List (Text × Json)}
    (hkey : ∀ member ∈ members, member.1 ≠ numberKey) :
    ofMembers? members = some (.object (sortMembers members)) := by
  cases members with
  | nil => rfl
  | cons member members =>
      obtain ⟨key, value⟩ := member
      have hfirst : key ≠ numberKey := hkey (key, value) (by simp)
      show (if key = numberKey then _ else _) = _
      rw [if_neg hfirst]

/-- Members that are in order make the object that they are. -/
theorem ofMembers?_of_sortedKeys {members : List (Text × Json)} (hsorted : SortedKeys members)
    (hkey : ∀ member ∈ members, member.1 ≠ numberKey) :
    ofMembers? members = some (.object members) := by
  rw [ofMembers?_of_ne hkey, sortMembers_of_sortedKeys hsorted]

/-- The items of an array are read one by one. -/
theorem itemMeanings?_eq_some_iff {room : Nat} {items values : List Json} :
    itemMeanings? room items = some values ↔
      List.Forall₂ (fun item value => meaning? room item = some value) items values := by
  induction items generalizing values with
  | nil => simp [itemMeanings?, List.forall₂_nil_left_iff, eq_comm]
  | cons item items ih =>
      rw [itemMeanings?, List.forall₂_cons_left_iff]
      constructor
      · intro h
        obtain ⟨value, hvalue, hrest⟩ := Option.bind_eq_some_iff.mp h
        obtain ⟨others, hothers, rfl⟩ := Option.map_eq_some_iff.mp hrest
        exact ⟨value, others, hvalue, ih.mp hothers, rfl⟩
      · rintro ⟨value, others, hvalue, hothers, rfl⟩
        rw [hvalue, ih.mpr hothers]
        rfl

theorem memberMeanings?_eq_some_iff {room : Nat} {members values : List (Text × Json)} :
    memberMeanings? room members = some values ↔
      List.Forall₂ (fun member value => member.1 = value.1 ∧ meaning? room member.2 = some value.2)
        members values := by
  induction members generalizing values with
  | nil => simp [memberMeanings?, List.forall₂_nil_left_iff, eq_comm]
  | cons member members ih =>
      obtain ⟨key, tree⟩ := member
      rw [memberMeanings?, List.forall₂_cons_left_iff]
      constructor
      · intro h
        obtain ⟨value, hvalue, hrest⟩ := Option.bind_eq_some_iff.mp h
        obtain ⟨others, hothers, rfl⟩ := Option.map_eq_some_iff.mp hrest
        exact ⟨(key, value), others, ⟨rfl, hvalue⟩, ih.mp hothers, rfl⟩
      · rintro ⟨⟨_, value⟩, others, ⟨rfl, hvalue⟩, hothers, rfl⟩
        rw [hvalue, ih.mpr hothers]
        rfl

/-- **A value of the normal form means itself**, if its objects do not have the key that marks a
number. -/
theorem meaning?_of_readable {depth room : Nat} {value : Json} (h : Readable depth value)
    (hkeys : numberKey ∉ keys value) (hle : depth ≤ room) : meaning? room value = some value := by
  -- by the normal form: a container takes one of the places that its depth leaves
  induction h generalizing room with
  | null | bool | number | string => cases room <;> rfl
  | @array depth items _ ih =>
      obtain ⟨room, rfl⟩ := Nat.exists_eq_add_one_of_ne_zero (show room ≠ 0 by omega)
      have hitems : itemMeanings? room items = some items := by
        rw [itemMeanings?_eq_some_iff, List.forall₂_same]
        intro item hmem
        have hitem : numberKey ∉ keys item := fun hkey => hkeys (keys_of_mem_items hmem hkey)
        exact ih item hmem hitem (by omega)
      rw [meaning?, hitems, Option.map_some]
  | @object depth members hsorted _ ih =>
      obtain ⟨room, rfl⟩ := Nat.exists_eq_add_one_of_ne_zero (show room ≠ 0 by omega)
      have hmembers : memberMeanings? room members = some members := by
        rw [memberMeanings?_eq_some_iff, List.forall₂_same]
        intro member hmem
        have hmember : numberKey ∉ keys member.2 := by
          intro hkey
          exact hkeys ((keys_of_mem_members hmem).2 _ hkey)
        exact ⟨rfl, ih member hmem hmember (by omega)⟩
      -- no key marks a number, so the members are an object, and in order already
      have hobject : ofMembers? members = some (.object members) := by
        apply ofMembers?_of_sortedKeys hsorted
        intro member hmem heq
        exact hkeys (heq ▸ (keys_of_mem_members hmem).1)
      rw [meaning?, hmembers, Option.bind_some, hobject]

/-- **`Completes depth value`** — where `depth` more containers may be opened, the reader that is
given the tokens of the value completes it, whatever follows. -/
def Completes (depth : Nat) (value : Json) : Prop :=
  ∀ (frames : List Frame) (rest : List Token), frames.length + depth ≤ maxDepth →
    run ⟨frames, .value⟩ (toTokens value ++ rest) = run ⟨frames, .complete value⟩ rest

/-- **The reader completes every value of the normal form** whose objects do not have the key that
marks a number. -/
theorem completes_of_readable {depth : Nat} {value : Json} (h : Readable depth value)
    (hkeys : numberKey ∉ keys value) : Completes depth value := by
  intro frames rest hroom
  have hall : frames.length + (maxDepth - frames.length) = maxDepth := by omega
  rw [run_toTokens value hall, meaning?_of_readable h hkeys (by omega), Option.bind_some]

/-- **The tokens of a tree are read as what it means.** -/
theorem ofTokens?_eq_meaning? (tree : Json) :
    ofTokens? (toTokens tree) = meaning? maxDepth tree := by
  have hempty : ([] : List Frame).length + maxDepth = maxDepth := Nat.zero_add _
  have hrun := run_toTokens tree hempty []
  rw [List.append_nil] at hrun
  show (run ⟨[], .value⟩ (toTokens tree)).bind ReadState.result? = _
  rw [hrun, Option.bind_assoc]
  exact Option.bind_fun_some _

/-- The tokens of a value spell the value. -/
theorem ofTokens?_toTokens {value : Json} (h : Readable maxDepth value)
    (hkeys : numberKey ∉ keys value) : ofTokens? (toTokens value) = some value := by
  have hrun := completes_of_readable h hkeys [] [] (by simp)
  rw [List.append_nil] at hrun
  rw [ofTokens?, hrun]
  rfl

/-- A text that is written has the tokens of the value. -/
theorem tokens?_write (style : Style) {depth : Nat} {value : Json} (h : Readable depth value) :
    tokens? (write style 0 value) = some (toTokens value) := by
  have htokens := writes_of_readable style h 0 [] endsNumbers_nil
  rwa [List.append_nil, tokens?_nil, Option.map_some, List.append_nil] at htokens

/-- **A value that is written is read back**, in every style. -/
theorem ofText?_write (style : Style) {value : Json} (h : Readable maxDepth value)
    (hkeys : numberKey ∉ keys value) : ofText? (write style 0 value) = some value := by
  rw [ofText?, tokens?_write style h]
  exact ofTokens?_toTokens h hkeys

end PlainRequest.Json
