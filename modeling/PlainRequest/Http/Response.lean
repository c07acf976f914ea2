/-
# PlainRequest.Http.Response — what comes back

The network gives a status, headers whose values are bytes, and a body of bytes. A response has them
as text: header names in lower case, headers of one name together at the place of the first, and
bytes that are no text replaced.
-/

import PlainRequest.Text.Blank
import PlainRequest.Text.Utf8

namespace PlainRequest

open Text

/-- An answer as the network gives it. -/
structure RawResponse where
  status : Nat
  headers : List (Text × Bytes)
  body : Bytes
  deriving DecidableEq, Repr

/-- An answer as text. -/
structure Response where
  status : Nat
  headers : List (Text × Text)
  body : Text
  deriving DecidableEq, Repr

namespace Response

/-- Put a header behind the others of its name, or at the end. -/
def addHeader (name value : Text) : List (Text × Text) → List (Text × Text)
  | [] => [(name, value)]
  | (n, v) :: rest =>
      if n = name && ! (rest.any fun header => header.1 = name) then
        (n, v) :: (name, value) :: rest
      else (n, v) :: addHeader name value rest

/-- The text without a byte order mark at its start. -/
def dropOrderMark : Text → Text
  | '\uFEFF' :: rest => rest
  | text => text

/-- Read an answer as text. -/
def ofRaw (raw : RawResponse) : Response :=
  { status := raw.status
    headers := raw.headers.foldl
      (fun headers (name, value) => addHeader (lower name) (ofUtf8Lossy value) headers) []
    body := dropOrderMark (ofUtf8Lossy raw.body) }

/-- The value of the first header of this name, in any letter case. -/
def header? (response : Response) (name : Text) : Option Text :=
  (response.headers.find? fun header => agreeIgnoringCase header.1 name).map Prod.snd

/-- The media type without its parameters; empty when there is none. -/
def contentType (response : Response) : Text :=
  match response.header? "Content-Type".toList with
  | none => []
  | some value => trim (value.takeWhile (· ≠ ';'))

end Response

end PlainRequest
