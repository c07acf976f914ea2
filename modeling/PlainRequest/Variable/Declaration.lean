/-
# PlainRequest.Variable.Declaration — variables declared in comments

A comment may declare a variable: `# :name = value` for the block it stands in, `# $name = value`
for the whole document. The name holds neither white space, `=` nor its own marker; white space
around the `=` is free, and the value is everything after it.

Only a value of nothing but white space needs care. At least one character has to be left for it,
so it is then the last character of the line.
-/

import PlainRequest.Text.Blank
import PlainRequest.Variable.Table

namespace PlainRequest

open Text

/-- Where a declared variable can be used. -/
inductive Scope
  | document
  | block
  deriving DecidableEq, Repr

/-- The character that tokens of the scope start with. -/
def Scope.marker : Scope → Char
  | .document => '$'
  | .block => ':'

/-- A variable declaration: the token, marker included, and the value that replaces it. -/
structure Declaration where
  scope : Scope
  token : Text
  value : Text
  deriving DecidableEq, Repr

namespace Declaration

/-- Can the character stand in a variable name of the scope? -/
def isNameChar (scope : Scope) (c : Char) : Bool :=
  c ≠ scope.marker && ! isSpace c && c ≠ '='

/-- The value in what follows the `=`: without the white space in front of it, unless nothing else
is there, when the last character is the value. A value stays within one line. -/
def value? (afterEquals : Text) : Option Text :=
  let value := match trimStart afterEquals with
    | [] => afterEquals.getLast?.toList
    | c :: rest => c :: rest
  if value.isEmpty || value.contains '\n' then none else some value

/-- The text after the marker, read as name, `=` and value. -/
def nameAndValue? (scope : Scope) (text : Text) : Option (Text × Text) := do
  let name := text.takeWhile (isNameChar scope)
  let afterName := trimStart (text.dropWhile (isNameChar scope))
  let afterEquals ← stripPrefix? ['='] afterName
  let value ← value? afterEquals
  if name.isEmpty then none else pure (name, value)

/-- Drop one space at the start. -/
def dropSpace : Text → Text
  | ' ' :: rest => rest
  | text => text

/-- The declaration that a line makes in a scope. -/
def ofLine? (scope : Scope) (line : Text) : Option Declaration := do
  let afterHash ← stripPrefix? ['#'] line
  let afterMarker ← stripPrefix? [scope.marker] (dropSpace afterHash)
  let (name, value) ← nameAndValue? scope afterMarker
  pure ⟨scope, scope.marker :: name, value⟩

/-- The declarations that lines make in a scope, in order. -/
def collect (scope : Scope) (lines : List Text) : List Declaration :=
  lines.filterMap (ofLine? scope)

end Declaration

namespace Table

/-- The table that declarations make, the last one of a token deciding its value. -/
def ofDeclarations (declarations : List Declaration) : Table :=
  ofList (declarations.map fun declaration => (declaration.token, declaration.value))

/-- The variables a block can use: those the document declares for all of it, then those the block
declares for itself. -/
def resolve (document block : List Text) : Table :=
  (ofDeclarations (Declaration.collect .document document)).overlay
    (ofDeclarations (Declaration.collect .block block))

end Table

end PlainRequest
