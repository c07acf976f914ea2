/-
# PlainRequest.Json.Value — JSON values

A number is kept by its spelling, so that no digit is ever lost. The members of an object stand in
the order of their keys, character by character, and no key appears twice; `setMember` keeps both.
-/

import PlainRequest.Text.Basic

namespace PlainRequest

/-- A JSON value. -/
inductive Json
  | null
  | bool (value : Bool)
  | number (spelling : Text)
  | string (text : Text)
  | array (items : List Json)
  | object (members : List (Text × Json))

namespace Json

/-- Put a member among members that are in the order of their keys; a key that is there takes the
new value. -/
def setMember (key : Text) (value : Json) : List (Text × Json) → List (Text × Json)
  | [] => [(key, value)]
  | (k, v) :: rest =>
      if key = k then (key, value) :: rest
      else if key < k then (key, value) :: (k, v) :: rest
      else (k, v) :: setMember key value rest

/-- Members in the order of their keys; of two with one key the later decides. -/
def sortMembers (members : List (Text × Json)) : List (Text × Json) :=
  members.foldl (fun sorted (key, value) => setMember key value sorted) []

end Json

end PlainRequest
