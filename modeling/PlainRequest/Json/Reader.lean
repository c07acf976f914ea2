/-
# PlainRequest.Json.Reader — from tokens to a value

The reader takes one token at a time. It remembers the containers that are open around the place it
has reached, the innermost first, and what may come there. At most 127 containers may be open at
once.

One object is not an object: if the first key is the reserved number key, the object must have this
one member, its value must be a string that spells a number, and it stands for that number.
-/

import PlainRequest.Json.Token
import PlainRequest.Json.Value

namespace PlainRequest.Json

/-- A container that is open around a value: what it holds so far, the last first, and for an object
the key of that value. -/
inductive Frame
  | array (items : List Json)
  | object (members : List (Text × Json)) (key : Text)

/-- What has just been read, which decides what may come. -/
inductive Mode
  /-- A value must come. -/
  | value
  /-- An array was opened: its first item or its end must come. -/
  | firstItem
  /-- An object was opened: its first key or its end must come. -/
  | firstKey
  /-- A comma in an object: a key must come. -/
  | nextKey (members : List (Text × Json))
  /-- A key: its colon must come. -/
  | colon (members : List (Text × Json)) (key : Text)
  /-- A value is complete. -/
  | complete (value : Json)

/-- The open containers, the innermost first, and the mode. -/
structure ReadState where
  frames : List Frame
  mode : Mode

/-- The key that marks a number given by its spelling. -/
def numberKey : Text := "$serde_json::private::Number".toList

/-- How many containers may be open at once. -/
def maxDepth : Nat := 127

/-- The value of an object with these members, in the order in which they were written. -/
def ofMembers? (members : List (Text × Json)) : Option Json :=
  match members with
  | [] => some (.object [])
  | (key, value) :: others =>
      if key = numberKey then
        match value, others with
        | .string text, [] => (numberOf? text).map .number
        | _, _ => none
      else some (.object (sortMembers members))

/-- The value of a token that is a value by itself. -/
def scalar? : Token → Option Json
  | .null => some .null
  | .bool value => some (.bool value)
  | .number spelling => some (.number spelling)
  | .string text => some (.string text)
  | _ => none

/-- Read a token where a value may start. -/
def stepValue (frames : List Frame) (token : Token) : Option ReadState :=
  match token with
  | .openArray =>
      if frames.length < maxDepth then some ⟨.array [] :: frames, .firstItem⟩ else none
  | .openObject => if frames.length < maxDepth then some ⟨frames, .firstKey⟩ else none
  | _ => (scalar? token).map fun value => ⟨frames, .complete value⟩

/-- Read a token behind a complete value. -/
def stepComplete (frames : List Frame) (value : Json) (token : Token) : Option ReadState :=
  match frames, token with
  | .array items :: outer, .comma => some ⟨.array (value :: items) :: outer, .value⟩
  | .array items :: outer, .closeArray =>
      some ⟨outer, .complete (.array (value :: items).reverse)⟩
  | .object members key :: outer, .comma => some ⟨outer, .nextKey ((key, value) :: members)⟩
  | .object members key :: outer, .closeObject =>
      (ofMembers? ((key, value) :: members).reverse).map fun object => ⟨outer, .complete object⟩
  | _, _ => none

/-- Read one token. -/
def step (state : ReadState) (token : Token) : Option ReadState :=
  match state.mode, token with
  | .value, _ => stepValue state.frames token
  | .firstItem, .closeArray => some ⟨state.frames.tail, .complete (.array [])⟩
  | .firstItem, _ => stepValue state.frames token
  | .firstKey, .closeObject => some ⟨state.frames, .complete (.object [])⟩
  | .firstKey, .string key => some ⟨state.frames, .colon [] key⟩
  | .nextKey members, .string key => some ⟨state.frames, .colon members key⟩
  | .colon members key, .colon => some ⟨.object members key :: state.frames, .value⟩
  | .complete value, _ => stepComplete state.frames value token
  | _, _ => none

/-- Read tokens in turn. -/
def run (state : ReadState) (tokens : List Token) : Option ReadState := tokens.foldlM step state

/-- The value, if one value is complete and no container is open. -/
def ReadState.result? : ReadState → Option Json
  | ⟨[], .complete value⟩ => some value
  | _ => none

/-- The value that tokens spell. -/
def ofTokens? (tokens : List Token) : Option Json := do
  let final ← run ⟨[], .value⟩ tokens
  final.result?

/-- The value that a text spells. -/
def ofText? (text : Text) : Option Json := do
  let tokens ← tokens? text
  ofTokens? tokens

end PlainRequest.Json
