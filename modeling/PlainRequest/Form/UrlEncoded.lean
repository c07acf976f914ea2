/-
# PlainRequest.Form.UrlEncoded — form fields as one line of text

Fields are written `name=value` with `&` between them. In names and values ASCII letters, digits
and four marks stand for themselves, a space becomes `+`, and everything else is percent-encoded,
so neither separator occurs inside a field.
-/

import PlainRequest.Text.Percent

namespace PlainRequest.Form

open Text

/-- Does the character stand for itself in a name or value? -/
def isKept (c : Char) : Bool := c.isAlphanum || "*-._".toList.contains c

/-- A character of a name or value. -/
def encodeChar (c : Char) : Text := if c = ' ' then ['+'] else percentChar isKept c

/-- A name or value. -/
def encodeText (text : Text) : Text := text.flatMap encodeChar

/-- A field. -/
def encodeField (field : Text × Text) : Text :=
  encodeText field.1 ++ ['='] ++ encodeText field.2

/-- Fields, in order. -/
def encode (fields : List (Text × Text)) : Text := joinWith ['&'] (fields.map encodeField)

/-! ## Reading -/

/-- A plus sign stands for a space. -/
def plusToSpace (c : Char) : Char := if c = '+' then ' ' else c

/-- Read a name or value. -/
def decodeText (text : Text) : Text := ofUtf8Lossy (percentDecode (text.map plusToSpace))

/-- Read a field; without an equals sign all of it is the name. -/
def decodeField (piece : Text) : Text × Text :=
  match splitFirst? '=' piece with
  | some (name, value) => (decodeText name, decodeText value)
  | none => (decodeText piece, [])

/-- Read fields; empty pieces between separators are none. -/
def decode (text : Text) : List (Text × Text) :=
  ((splitAll '&' text).filter (! ·.isEmpty)).map decodeField

end PlainRequest.Form
