/-
# PlainRequest.Files.Tree — a file tree in memory

Files and directories under one root, with the answers a POSIX file system gives: a path is walked
part by part, each step needs a directory to start from, `..` at the root stays there, and a slash
at the end of a path asks for a directory. A part has at most 255 bytes and a path at most 4095.
-/

import PlainRequest.Files.Basic
import PlainRequest.Files.Path

namespace PlainRequest

open Text

/-- Files with their content and directories, each at the parts of its path from the root. A
directory that holds something need not be listed. -/
structure FileTree where
  files : List (List Text × Bytes)
  directories : List (List Text)

namespace FileTree

/-- The content of the file at a place. -/
def content? (tree : FileTree) (place : List Text) : Option Bytes := tree.files.lookup place

/-- Is there a directory at a place? The root is one, and so is every place above another. -/
def isDirectory (tree : FileTree) (place : List Text) : Bool :=
  place.isEmpty || tree.directories.any (place.isPrefixOf ·)
    || tree.files.any fun (file, _) => place.isPrefixOf file && place ≠ file

/-- The longest name of a file or directory, in bytes. -/
def maxName : Nat := 255

/-- The longest path, in bytes. -/
def maxPath : Nat := 4095

/-- Walk the parts of a path from a place. -/
def walk (tree : FileTree) (place : List Text) : List Text → Except ReadError (List Text)
  | [] => pure place
  | part :: rest =>
      if ! tree.isDirectory place then throw .notDirectory
      else if part.isEmpty || part = ['.'] then walk tree place rest
      else if part = "..".toList then walk tree place.dropLast rest
      else if (toUtf8 part).length > maxName then throw .nameTooLong
      else
        let next := place ++ [part]
        if (tree.content? next).isSome || tree.isDirectory next then walk tree next rest
        else throw .notFound

/-- The place a path leads to from a working directory. -/
def locate (tree : FileTree) (workingDirectory : List Text) (path : Text) :
    Except ReadError (List Text) :=
  if path.contains '\x00' then throw .nulInPath
  else if path.isEmpty then throw .notFound
  else if (toUtf8 path).length > maxPath then throw .nameTooLong
  else if startsWith ['/'] path then tree.walk [] (splitAll '/' path)
  else tree.walk workingDirectory (splitAll '/' path)

/-- The content of the file that a path leads to. -/
def read (tree : FileTree) (workingDirectory : List Text) (path : Text) :
    Except ReadError Bytes := do
  let place ← tree.locate workingDirectory path
  match tree.content? place with
  | some bytes => pure bytes
  | none => throw .isDirectory

/-- The file system of a tree, seen from a working directory. -/
def toFiles {m : Type → Type} [Monad m] (tree : FileTree) (workingDirectory : List Text) :
    Files m :=
  { read := fun path => pure (tree.read workingDirectory path)
    isPresent := fun path => pure (tree.locate workingDirectory path).toBool }

end FileTree

end PlainRequest
