/-
# PlainRequest.Http.Rendered — a response as lines to show

The lines of a response are those of its body, an empty line, and then its status and its headers as
comments. A body that is announced as JSON and is JSON is laid out anew; any other body is shown as
it came.
-/

import PlainRequest.Http.Response
import PlainRequest.Json.Printer
import PlainRequest.Settings.Basic

namespace PlainRequest

open Text

/-- A response as lines to show. -/
structure Rendered where
  lines : List Text
  contentType : Text
  /-- The language the body is best shown in. -/
  language : Text
  status : Nat
  deriving DecidableEq, Repr

namespace Rendered

/-- Did the server do what it was asked for? -/
def isSuccess (rendered : Rendered) : Bool := 200 ≤ rendered.status && rendered.status ≤ 299

/-- Was the request at fault? -/
def isClientError (rendered : Rendered) : Bool := 400 ≤ rendered.status && rendered.status ≤ 499

/-- The media type of JSON. -/
def jsonType : Text := "application/json".toList

/-- Does the media type announce JSON? -/
def isJsonType (contentType : Text) : Bool :=
  endsWith "json".toList (lower contentType) || endsWith "javascript".toList (lower contentType)

/-- How JSON is laid out by the settings. -/
def jsonStyle (settings : JsonSettings) : Json.Style :=
  ⟨settings.indentWidth, settings.escapeNonAscii⟩

/-- The language for a media type. -/
def languageOf (settings : JsonSettings) (contentType : Text) : Text :=
  if contentType = jsonType then settings.language
  else if contentType = "application/xml".toList then "xml".toList
  else if contentType = "text/html".toList then "html".toList
  else "http".toList

/-- The body to show for a media type. -/
def bodyText (settings : JsonSettings) (contentType body : Text) : Text :=
  if isJsonType contentType then (Json.reformat? (jsonStyle settings) body).getD body else body

/-- The status and the headers as comments. -/
def commentLines (response : Response) : List Text :=
  ("// status code: ".toList ++ Nat.toDigits 10 response.status)
    :: response.headers.map fun (name, value) =>
      "// ".toList ++ name ++ ": ".toList ++ value

/-- Render a response. -/
def ofResponse (settings : JsonSettings) (response : Response) : Rendered :=
  let announced := response.contentType
  let contentType := if isJsonType announced then jsonType else announced
  { lines := splitAll '\n' (bodyText settings announced response.body)
      ++ [[]] ++ commentLines response
    contentType
    language := languageOf settings contentType
    status := response.status }

end Rendered

end PlainRequest
