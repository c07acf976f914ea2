/-
# PlainRequest.Request.Head — from the lines of a block to a request, and back

Comments and blank lines of a block do not count. Of the lines that do, the first is the request
line; the header lines directly behind it are the headers; all from the first other line on is body,
even what looks like a header. Lines are recognised as they are written; variables are replaced
afterwards, in the target, in header values and in body lines, so that no value changes what a line
is.

The written form of a request has one line for the method and the target, one per header, and then the
body: no line for an empty one, the lines of raw text, or one `name=value` line per form field.
-/

import PlainRequest.Line
import PlainRequest.Request.Body
import PlainRequest.Variable.Declaration
import PlainRequest.Variable.Substitution

namespace PlainRequest

open Text

/-- Why a block describes no request. -/
inductive BlockError
  /-- Nothing is left without comments and blank lines. -/
  | emptyBlock
  /-- The first significant line is no request line. -/
  | malformedRequestLine (line : Text)
  deriving DecidableEq, Repr

/-- The text of a block error. -/
def BlockError.message : BlockError → Text
  | emptyBlock => "Request was empty".toList
  | malformedRequestLine line =>
      "Could not find method or URL in line '".toList ++ line ++ ['\'']

/-- A request whose body has not been classified. -/
structure Head where
  method : Method
  url : Text
  headers : List (Text × Text)
  bodyLines : List Text
  deriving DecidableEq, Repr

namespace Head

/-- Cut the lines behind the request line into the leading header lines and the rest. -/
def splitHeaders : List Text → List (Text × Text) × List Text
  | [] => ([], [])
  | line :: rest =>
      match Line.header? line with
      | some header =>
          let (headers, body) := splitHeaders rest
          (header :: headers, body)
      | none => ([], line :: rest)

/-- Read the lines of a block, replacing the variables of a table. -/
def ofBlock (table : Table) (block : List Text) : Except BlockError Head :=
  match Line.significant block with
  | [] => throw .emptyBlock
  | first :: rest =>
      match Line.request? first with
      | none => throw (.malformedRequestLine first)
      | some (method, target) =>
          let (headers, body) := splitHeaders rest
          let values := headers.map fun (name, value) => (name, table.substitute value)
          pure
            { method
              url := table.substitute target
              headers := Keyed.putAll values []
              bodyLines := body.map table.substitute }

/-- The header lines are the longest run of lines that read as headers. -/
theorem splitHeaders_eq (lines : List Text) :
    splitHeaders lines =
      ((lines.takeWhile fun line => (Line.header? line).isSome).filterMap Line.header?,
        lines.dropWhile fun line => (Line.header? line).isSome) := by
  induction lines with
  | nil => rfl
  | cons line rest ih =>
      cases h : Line.header? line with
      | none => simp [splitHeaders, h]
      | some header => simp [splitHeaders, h, ih]

end Head

/-- Read the lines of a block as a request, replacing the variables of a table. -/
def Request.ofBlock (table : Table) (block : List Text) : Except BlockError Request := do
  let head ← Head.ofBlock table block
  pure
    { method := head.method
      url := head.url
      headers := head.headers
      body := Body.ofLines head.bodyLines }

/-! ## The written form -/

/-- The lines of a body. -/
def Body.toLines : Body → List Text
  | raw [] => []
  | raw text => splitAll '\n' text
  | form fields => fields.map fun (name, value) => name ++ ['='] ++ value.toText

/-- The lines of a request. -/
def Request.toLines (request : Request) : List Text :=
  Line.ofRequest request.method request.url ::
    request.headers.map (fun (name, value) => Line.ofHeader name value) ++ request.body.toLines

end PlainRequest
