/-
# PlainRequest.Http.Wire — a prepared request as a message

The message for a prepared request has the normal form of its URL, its headers under lower-case
names in the order in which they are given, and a body of bytes. A name and a password in the URL
become an authorization header in front. A form in parts brings a content type of its own, in place
of those of the block, and its length, besides those of the block; a form on one line brings a content
type only if the block has none. If nothing says what is accepted, everything is.

What the headers say about the end of the body is kept to, even where a block says something else than
is true: behind a content length no more bytes are sent than it tells, and behind a transfer coding the
body goes in chunks. Only a content length that tells nothing makes way for the true one.

Not every request can be a message. A header must have a proper name and a value without control
characters; the URL must have a host, be of a scheme that requests are sent to, and have no
character that messages cannot hold.
-/

import PlainRequest.Form.UrlEncoded
import PlainRequest.Http.Header
import PlainRequest.Http.Prepared
import PlainRequest.Url.Reader

namespace PlainRequest

open Text

/-- A message to a server. -/
structure WireRequest where
  method : Method
  url : Url
  headers : List (Text × Text)
  body : Bytes
  deriving DecidableEq, Repr

/-! ## Credentials -/

namespace Url

/-- The user name and the password of a URL as texts. A password that is no text is none; with a
user name that is no text there are no credentials. -/
def credentials? (url : Url) : Option (Text × Option Text) := do
  let authority ← url.authority
  let userName ← ofUtf8? (percentDecode authority.userName)
  let password :=
    if authority.password.isEmpty then none else ofUtf8? (percentDecode authority.password)
  if userName.isEmpty && password.isNone then none else pure (userName, password)

/-- The URL a message is sent to, and the header for its credentials. -/
def splitCredentials (url : Url) : Url × List (Text × Text) :=
  match url.credentials? with
  | none => (url, [])
  | some (userName, password) =>
      (url.withoutCredentials, [Header.authorization userName password])

/-- The schemes that requests are sent to. -/
def isSendable (url : Url) : Bool := url.scheme = "http".toList || url.scheme = "https".toList

/-- The longest URL in a message, in bytes. -/
def maxLength : Nat := 65534

/-- The characters of a domain name that a message cannot hold. -/
def unsendable : Text := "\"`".toList ++ ['{', '}']

/-- Can the character stand in the URL of a message? Spaces and controls cannot. -/
def isSendableChar (c : Char) : Bool := '!' ≤ c && c ≠ '\x7f'

/-- Can the URL stand in a message? -/
def fitsMessage (url : Url) : Bool :=
  (toUtf8 url.toText).length ≤ maxLength
    && url.toText.all isSendableChar
    && url.authority.all fun authority => ! authority.host.toText.any unsendable.contains

end Url

/-! ## Message -/

namespace WireRequest

/-- The headers of the block that the message takes over. -/
def blockHeaders (prepared : Prepared) : List (Text × Text) :=
  match prepared.payload with
  | .multipart _ => prepared.headers.filter (! Header.isContentType ·)
  | _ => prepared.headers

/-- The headers that the payload brings. -/
def payloadHeaders (boundary : Text) (prepared : Prepared) : List (Text × Text) :=
  match prepared.payload with
  | .multipart form =>
      [(Header.contentType, Multipart.mediaType boundary),
        (Header.contentLength, Nat.toDigits 10 (form.toBytes boundary).length)]
  | .urlEncoded _ =>
      if prepared.headers.any Header.isContentType then []
      else [(Header.contentType, "application/x-www-form-urlencoded".toList)]
  | _ => []

/-- The body for a payload. -/
def bodyOf (boundary : Text) : Payload → Bytes
  | .empty => []
  | .text content => toUtf8 content
  | .urlEncoded fields => toUtf8 (Form.encode fields)
  | .multipart form => form.toBytes boundary

/-- Is the body made while it is sent? Then its length is only what a header tells. -/
def isStream : Payload → Bool
  | .multipart _ => true
  | _ => false

/-- Add the header that accepts any answer unless there is one for what is accepted. -/
def withAccept (headers : List (Text × Text)) : List (Text × Text) :=
  if headers.any fun header => header.1 = Header.acceptAny.1 then headers
  else headers ++ [Header.acceptAny]

/-- All headers of a message. -/
def headersOf (boundary : Text) (credentials : List (Text × Text)) (prepared : Prepared) :
    List (Text × Text) :=
  withAccept
    (credentials ++ (blockHeaders prepared).map (fun (name, value) => (lower name, value))
      ++ payloadHeaders boundary prepared)

/-- Check what a message to a URL needs. -/
def check (url target : Url) (prepared : Prepared) : Except SendFault Unit := do
  if ! url.hasHost then throw (.scheme url.toText)
  Header.check (blockHeaders prepared)
  if ! target.isSendable then throw (.scheme target.toText)
  if ! target.fitsMessage then throw (.address target.toText)

/-- The headers and the body that go with a body to send. Of the headers for its end only those stay
that are kept to, and only what they allow of the body does. A stream whose length is not told goes in
chunks, except where a method mostly has no body: there it is left out. -/
def framed (isStream : Bool) (method : Method) (headers : List (Text × Text)) (body : Bytes) :
    List (Text × Text) × Bytes :=
  let withoutLength := headers.filter (! Header.isCalled Header.contentLength ·)
  if body.isEmpty then (headers.filter (! Header.isCalled Header.transferEncoding ·), [])
  else if headers.any (Header.isCalled Header.transferEncoding) then
    (Header.completeCodings
      (if (Header.toldLength? headers).isSome then withoutLength else headers), body)
  else
    match Header.toldLength? headers with
    | some length => (headers, body.take length)
    | none =>
        if ! isStream then (withoutLength, body)
        else if method = .get || method = .head then (headers, [])
        else (headers ++ [(Header.transferEncoding, Header.chunked)], body)

/-- The message that takes a prepared request to a URL. -/
def ofTarget (boundary : Text) (target : Url) (credentials : List (Text × Text))
    (prepared : Prepared) : WireRequest :=
  let (headers, body) :=
    framed (isStream prepared.payload) prepared.method (headersOf boundary credentials prepared)
      (bodyOf boundary prepared.payload)
  { method := prepared.method, url := target, headers, body }

/-- The message for a prepared request; `boundary` must not occur in its body. -/
def ofPrepared (boundary : Text) (prepared : Prepared) : Except Failure WireRequest :=
  match Url.ofText prepared.url with
  | .error error => throw (.url prepared.url error)
  | .ok url =>
      let (target, credentials) := url.splitCredentials
      match check url target prepared with
      | .error fault => throw (.sending fault)
      | .ok () => pure (ofTarget boundary target credentials prepared)

end WireRequest

end PlainRequest
