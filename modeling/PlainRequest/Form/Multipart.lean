/-
# PlainRequest.Form.Multipart — form fields and attachments as parts of one body

Each part is announced by the boundary and carries a disposition line with the field's name, and the
file's name for an attachment. A field name that cannot stand between quotation marks as it is is
percent-encoded and marked as such. In a file name the characters that would end the line or the
quotation get a backslash in front.
-/

import PlainRequest.Text.Percent

namespace PlainRequest

open Text

/-- A file sent with a form. -/
structure Attachment where
  /-- The field it is sent for. -/
  field : Text
  fileName : Text
  bytes : Bytes
  deriving DecidableEq, Repr

/-- The fields and the attachments of a form. -/
structure Multipart where
  fields : List (Text × Text)
  attachments : List Attachment
  deriving DecidableEq, Repr

namespace Multipart

/-- The end of a line. -/
def newline : Text := ['\r', '\n']

/-- The characters that a field name shows as they are. -/
def isNameChar (c : Char) : Bool :=
  isGraphic c && ! ("\"<>`#?/%".toList ++ ['{', '}']).contains c

/-- The disposition parameter for a field name. -/
def nameParameter (name : Text) : Text :=
  if name.all isNameChar then "name=\"".toList ++ name ++ ['"']
  else "name*=utf-8''".toList ++ percentEncode isNameChar name

/-- The disposition parameter for a file name. -/
def fileNameParameter (fileName : Text) : Text :=
  "; filename=\"".toList
    ++ fileName.flatMap (fun c => if "\\\"\r\n".toList.contains c then ['\\', c] else [c])
    ++ ['"']

/-- A part: boundary, disposition and content. -/
def part (boundary parameters : Text) (content : Bytes) : Bytes :=
  toUtf8 ("--".toList ++ boundary ++ newline ++ "Content-Disposition: form-data; ".toList
    ++ parameters ++ newline ++ newline) ++ content ++ toUtf8 newline

/-- The part of a field. -/
def fieldPart (boundary : Text) (field : Text × Text) : Bytes :=
  part boundary (nameParameter field.1) (toUtf8 field.2)

/-- The part of an attachment. -/
def attachmentPart (boundary : Text) (attachment : Attachment) : Bytes :=
  part boundary (nameParameter attachment.field ++ fileNameParameter attachment.fileName)
    attachment.bytes

/-- The body: the parts of the fields, those of the attachments, and the closing boundary. -/
def toBytes (boundary : Text) (form : Multipart) : Bytes :=
  form.fields.flatMap (fieldPart boundary) ++ form.attachments.flatMap (attachmentPart boundary)
    ++ toUtf8 ("--".toList ++ boundary ++ "--".toList ++ newline)

/-- The media type that announces a boundary. -/
def mediaType (boundary : Text) : Text := "multipart/form-data; boundary=".toList ++ boundary

end Multipart

end PlainRequest
