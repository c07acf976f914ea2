/-
# PlainRequest.Curl.Command — requests as curl commands, and back

A block becomes one command on one line: `curl -X` with the method, `-H` for every header, then
always `-v` and `-d`, and the URL. Header and data stand in double quotes; the data are the body
lines, each trimmed, with one space between them.

A command becomes the lines of a block: the request line, the headers as they were given, and the
data as JSON text if it is JSON and as one line if it is not. The data may be missing or empty; when
it is there at all, the method is `POST` unless one is given.

`escapeForHost` puts a command into a string of a host program that uses double quotes.
-/

import PlainRequest.Curl.Call
import PlainRequest.Failure
import PlainRequest.Json.Printer
import PlainRequest.Request.Head
import PlainRequest.Shell.Quote
import PlainRequest.Shell.Words

namespace PlainRequest.Curl

open Text

/-! ## Writing a command -/

/-- The words ` -H "name: value"` for a header. -/
def headerOption (name value : Text) : Text :=
  " -H \"".toList ++ Shell.escapeDouble (Line.ofHeader name value) ++ ['"']

/-- The data of a command: trimmed body lines with one space between them. -/
def dataOf (bodyLines : List Text) : Text := joinWith [' '] (bodyLines.map trim)

/-- The command for a request, given a spelling of its URL. -/
def commandOf (head : Head) (quotedUrl : Text) : Text :=
  "curl -X ".toList ++ head.method.name
    ++ head.headers.flatMap (fun (name, value) => headerOption name value)
    ++ " -v -d \"".toList ++ Shell.escapeDouble (dataOf head.bodyLines) ++ "\" ".toList
    ++ quotedUrl

/-- The command for a block, with the variables of a table replaced. -/
def ofBlock (table : Table) (block : List Text) : Except Failure Text :=
  match Head.ofBlock table block with
  | .error error => throw (.block error)
  | .ok head =>
      match Shell.quote? head.url with
      | none => throw (.curl .unquotableUrl)
      | some quotedUrl => pure (commandOf head quotedUrl)

/-- The text with a backslash before every backslash and every double quote. -/
def escapeForHost (text : Text) : Text :=
  text.flatMap fun c => if c = '\\' ∨ c = '"' then ['\\', c] else [c]

/-! ## Reading a command -/

/-- How JSON data is laid out on lines of its own. -/
def dataStyle : Json.Style := ⟨4, true⟩

/-- The body lines for the data of a command. -/
def dataLines (data : Text) : List Text :=
  if data.isEmpty then []
  else
    match Json.reformat? dataStyle data with
    | some json => lines json
    | none => [data]

/-- The method when none is given: `POST` with data, `GET` without. -/
def defaultMethod (data : Option Text) : Text :=
  if data.isSome then Method.post.name else Method.get.name

/-- The lines of a block for what a command asks for. -/
def Call.toLines (call : Call) : List Text :=
  let method := call.method.getD (defaultMethod call.data)
  (method ++ [' '] ++ call.url) :: call.headers ++ dataLines (call.data.getD [])

/-- The words without the command name at their front. -/
def dropCommandName : List Text → List Text
  | [] => []
  | word :: rest => if word = "curl".toList then rest else word :: rest

/-- The lines of a block for a curl command. -/
def toLines (command : Text) : Except Failure (List Text) :=
  match Shell.words? command with
  | none => throw (.curl .unbalanced)
  | some words =>
      match Call.ofWords (dropCommandName words) with
      | .error stop => throw (.curl (.arguments stop))
      | .ok call => pure call.toLines

end PlainRequest.Curl
