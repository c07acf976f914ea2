/-
# PlainRequest.Http.Prepared — a request with its attachments read

Before a request is sent, every file that its form names is read; the first one that cannot be read
is the failure. What is sent depends on the body: nothing, text, form fields, or, as soon as there
is an attachment, a form in several parts.
-/

import PlainRequest.Failure
import PlainRequest.Files.Path
import PlainRequest.Form.Multipart

namespace PlainRequest

open Text

/-- What a request carries. -/
inductive Payload
  | empty
  | text (content : Text)
  | urlEncoded (fields : List (Text × Text))
  | multipart (form : Multipart)
  deriving DecidableEq, Repr

/-- A request with all it needs to be sent. -/
structure Prepared where
  method : Method
  url : Text
  headers : List (Text × Text)
  payload : Payload
  deriving DecidableEq, Repr

/-- Is there a header of this name, in any letter case? -/
def Prepared.hasHeader (prepared : Prepared) (name : Text) : Bool :=
  prepared.headers.any fun header => agreeIgnoringCase header.1 name

namespace Prepared

/-- The fields that hold text, in order. -/
def literalFields (fields : List (Text × FieldValue)) : List (Text × Text) :=
  fields.filterMap fun (name, value) =>
    match value with
    | .literal text => some (name, text)
    | _ => none

/-- The attachment for a file: it is called by the last part of the path, or by the whole path. -/
def fileAttachment (field path : Text) (bytes : Bytes) : Attachment :=
  ⟨field, (Path.fileName? path).getD path, bytes⟩

/-- The attachment for content given in the block: it is called like its field. -/
def contentAttachment (field text : Text) : Attachment := ⟨field, field, toUtf8 text⟩

variable {m : Type → Type} [Monad m]

/-- Read the attachments of a form, in order, up to the first file that cannot be read. -/
def readAttachments (files : Files m) :
    List (Text × FieldValue) → m (Except Failure (List Attachment))
  | [] => pure (.ok [])
  | (_, .literal _) :: rest => readAttachments files rest
  | (field, .content text) :: rest => do
      let others ← readAttachments files rest
      pure (others.map (contentAttachment field text :: ·))
  | (field, .file path) :: rest => do
      match ← files.read path with
      | .error error => pure (.error (.attachment path error))
      | .ok bytes =>
          let others ← readAttachments files rest
          pure (others.map (fileAttachment field path bytes :: ·))

/-- The payload for a form. -/
def formPayload (fields : List (Text × Text)) : List Attachment → Payload
  | [] => .urlEncoded fields
  | attachment :: others => .multipart ⟨fields, attachment :: others⟩

/-- The payload for a body. -/
def payloadOf (files : Files m) : Body → m (Except Failure Payload)
  | .raw [] => pure (.ok .empty)
  | .raw text => pure (.ok (.text text))
  | .form fields => do
      let attachments ← readAttachments files fields
      pure (attachments.map (formPayload (literalFields fields)))

/-- Prepare a request. -/
def ofRequest (files : Files m) (request : Request) : m (Except Failure Prepared) := do
  let payload ← payloadOf files request.body
  pure (payload.map fun payload => ⟨request.method, request.url, request.headers, payload⟩)

end Prepared

end PlainRequest
