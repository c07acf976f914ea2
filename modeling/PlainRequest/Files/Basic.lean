/-
# PlainRequest.Files — reading files

What a program may ask of a file system, in any monad: the content of a file, and whether something
is there. A read that fails says why.
-/

import PlainRequest.Text.Utf8

namespace PlainRequest

/-- Why something cannot be read. -/
inductive ReadError
  | notFound
  | isDirectory
  | notDirectory
  | nameTooLong
  /-- The path holds a NUL. -/
  | nulInPath
  /-- The bytes are no text. -/
  | notUtf8
  /-- Anything else, in the system's words. -/
  | other (text : Text)
  deriving DecidableEq, Repr

/-- The text of a read error. -/
def ReadError.message : ReadError → Text
  | notFound => "No such file or directory (os error 2)".toList
  | isDirectory => "Is a directory (os error 21)".toList
  | notDirectory => "Not a directory (os error 20)".toList
  | nameTooLong => "File name too long (os error 36)".toList
  | nulInPath => "file name contained an unexpected NUL byte".toList
  | notUtf8 => "stream did not contain valid UTF-8".toList
  | other text => text

/-- A file system to read from. -/
structure Files (m : Type → Type) where
  /-- The content of the file at a path. -/
  read : Text → m (Except ReadError Bytes)
  /-- Is there anything at a path? -/
  isPresent : Text → m Bool

/-- Bytes as text, or the fault of being none. -/
def textOfBytes (bytes : Bytes) : Except ReadError Text :=
  match Text.ofUtf8? bytes with
  | some text => pure text
  | none => throw .notUtf8

theorem textOfBytes_toUtf8 (text : Text) : textOfBytes (Text.toUtf8 text) = .ok text := by
  rw [textOfBytes, Text.ofUtf8?_toUtf8]
  rfl

/-- The text of the file at a path. -/
def Files.readText {m : Type → Type} [Monad m] (files : Files m) (path : Text) :
    m (Except ReadError Text) := do
  let content ← files.read path
  pure (content.bind textOfBytes)

end PlainRequest
