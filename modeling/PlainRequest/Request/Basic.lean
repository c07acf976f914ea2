/-
# PlainRequest.Request — a request as its block describes it

A request has a method, a target, headers in the order of their first appearance, and a body that is
either raw text or a form. A form field holds text, or names a file to attach, or holds the content
of an attachment itself.
-/

import PlainRequest.Keyed
import PlainRequest.Method

namespace PlainRequest

/-- The value of a form field. -/
inductive FieldValue
  /-- The text itself. -/
  | literal (text : Text)
  /-- The content of the file at a path, read when the request is sent. -/
  | file (path : Text)
  /-- An attachment with this content. -/
  | content (text : Text)
  deriving DecidableEq, Repr

/-- The body of a request. -/
inductive Body
  | raw (text : Text)
  | form (fields : List (Text × FieldValue))
  deriving DecidableEq, Repr

namespace Body

/-- Is there nothing in the body? -/
def isEmpty : Body → Bool
  | raw text => text.isEmpty
  | form fields => fields.isEmpty

/-- The value of a form field; raw text has no fields. -/
def field? (name : Text) : Body → Option FieldValue
  | raw _ => none
  | form fields => Keyed.get? name fields

end Body

/-- A request as its block describes it, variables replaced. -/
structure Request where
  method : Method
  url : Text
  headers : List (Text × Text)
  body : Body
  deriving DecidableEq, Repr

/-- The value of a header; the case of its name matters. -/
def Request.header? (request : Request) (name : Text) : Option Text :=
  Keyed.get? name request.headers

end PlainRequest
