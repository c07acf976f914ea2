/-
# PlainRequest.Files.Path — the parts of a path

A path is a text whose parts are separated by slashes.
-/

import PlainRequest.Text.Basic

namespace PlainRequest.Path

open Text

/-- The path of `name` inside a directory. -/
def join (directory name : Text) : Text :=
  if directory.isEmpty || endsWith ['/'] directory then directory ++ name
  else directory ++ ['/'] ++ name

/-- The parts of a path that name something: neither empty nor a single dot. -/
def parts (path : Text) : List Text :=
  (splitAll '/' path).filter fun part => ! part.isEmpty && part ≠ ['.']

/-- The last part of a path; none if that is a step up, or if there is no part. -/
def fileName? (path : Text) : Option Text :=
  match (parts path).getLast? with
  | some name => if name = "..".toList then none else some name
  | none => none

/-- The absolute path with these parts. -/
def absolute (parts : List Text) : Text := ['/'] ++ joinWith ['/'] parts

/-- An absolute directory and every directory above it, the nearest first. -/
def ancestors (directory : Text) : List Text :=
  let parts := parts directory
  (List.range (parts.length + 1)).reverse.map fun count => absolute (parts.take count)

end PlainRequest.Path
