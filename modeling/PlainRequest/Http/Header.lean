/-
# PlainRequest.Http.Header — the headers of a message, and what they say about its body

A header has a proper name and a value without control characters. In a message the names are in lower
case; in a block they may be in any.

Two headers say where a body ends. A content length tells the number of its bytes: every header for it
and every member of their lists must tell the same one, or none is told. A transfer coding tells what is
done to the body on its way, and has to end in chunks, each of which tells its own size.
-/

import PlainRequest.Failure
import PlainRequest.Text.Percent

namespace PlainRequest.Header

open Text

/-! ## Names and values -/

/-- The longest name, in characters. -/
def maxNameLength : Nat := 65535

/-- Is the text a proper header name? -/
def isName (name : Text) : Bool :=
  ! name.isEmpty && name.length ≤ maxNameLength
    && name.all fun c => c.isAlphanum || "!#$%&'*+-.^_`|~".toList.contains c

/-- Has the text no control characters but tabs? -/
def isValue (value : Text) : Bool := value.all fun c => ' ' ≤ c && c ≠ '\x7f' || c = '\t'

/-- Check headers, of which the first bad one is the fault. -/
def check : List (Text × Text) → Except SendFault Unit
  | [] => pure ()
  | (name, value) :: rest =>
      if ! isName name then throw .headerName
      else if ! isValue value then throw .headerValue
      else check rest

/-- Is this the name of the header, in any letter case? -/
def isCalled (name : Text) (header : Text × Text) : Bool := lower header.1 = name

/-! ## Media types and credentials -/

/-- The name of the header for the media type of a body. -/
def contentType : Text := "content-type".toList

/-- Is the header one for the media type of a body? -/
def isContentType (header : Text × Text) : Bool := isCalled contentType header

/-- The header that accepts any answer. -/
def acceptAny : Text × Text := ("accept".toList, "*/*".toList)

/-- The header for a name and a password. -/
def authorization (userName : Text) (password : Option Text) : Text × Text :=
  ("authorization".toList,
    "Basic ".toList ++ base64 (toUtf8 (userName ++ [':'] ++ password.getD [])))

/-! ## Lists in a value -/

/-- Is the character a space or a tab? -/
def isBlank (c : Char) : Bool := c = ' ' || c = '\t'

/-- The text without spaces and tabs around it. -/
def trimBlanks (text : Text) : Text :=
  ((text.dropWhile isBlank).reverse.dropWhile isBlank).reverse

/-- The members of a list with commas between them. -/
def members (value : Text) : List Text := (splitAll ',' value).map trimBlanks

/-! ## Content length -/

/-- The name of the header for the length of a body. -/
def contentLength : Text := "content-length".toList

/-- The members of all headers for the length. -/
def lengthMembers (headers : List (Text × Text)) : List Text :=
  (headers.filter (isCalled contentLength)).flatMap (members ·.2)

/-- The length that all these members tell to a reader of numbers. -/
def toldBy? (read : Text → Option Nat) (headers : List (Text × Text)) : Option Nat :=
  match (lengthMembers headers).mapM read with
  | some (length :: others) => if others.all (· = length) then some length else none
  | _ => none

/-- The largest length that a sender understands: 64 bits. -/
def maxLength : Nat := 18446744073709551615

/-- Read a length as a sender does. -/
def length? (digits : Text) : Option Nat := do
  let length ← natOf? 10 digits
  if length ≤ maxLength then pure length else none

/-- The length that headers tell to a sender. -/
def toldLength? (headers : List (Text × Text)) : Option Nat := toldBy? length? headers

/-! ## Transfer coding -/

/-- The name of the header for what is done to a body on its way. -/
def transferEncoding : Text := "transfer-encoding".toList

/-- The coding that puts a body into chunks. -/
def chunked : Text := "chunked".toList

/-- Is the last member of the list the coding that puts a body into chunks? -/
def endsInChunks (value : Text) : Bool :=
  (members value).getLast?.any fun coding => lower coding = chunked

/-- Make a transfer coding end in chunks. Only a value of ASCII is looked at. -/
def completeCoding (value : Text) : Text :=
  if isAscii value && endsInChunks value then value else value ++ ", ".toList ++ chunked

/-- Make the transfer coding of the headers end in chunks; the last one for it decides. -/
def completeCodings : List (Text × Text) → List (Text × Text)
  | [] => []
  | header :: rest =>
      if isCalled transferEncoding header && ! rest.any (isCalled transferEncoding) then
        (header.1, completeCoding header.2) :: rest
      else header :: completeCodings rest

end PlainRequest.Header
