/-
# PlainRequest.Toml.Value — the values of a configuration text

A table remembers how it came about, because that decides what may still be added to it. Dates and
times are checked when they are read and then only known to be such; a float is only known to be
finite or not, since no setting is one.
-/

import PlainRequest.Text.Basic

namespace PlainRequest

/-- How a table came about. -/
inductive Toml.Origin
  /-- By a header of its own, or as the whole text. -/
  | header
  /-- By the header of a table inside it. -/
  | enclosing
  /-- By a dotted key. -/
  | dotted
  /-- Between braces. -/
  | inline
  deriving DecidableEq, Repr

/-- A value of a configuration text. -/
inductive Toml
  | string (text : Text)
  | integer (value : Int)
  /-- A float, and whether its magnitude fits. -/
  | float (inRange : Bool)
  | boolean (value : Bool)
  | datetime
  | array (items : List Toml)
  /-- The tables under headers in double brackets, the last one first. -/
  | tables (rows : List Toml)
  | table (origin : Toml.Origin) (entries : List (Text × Toml))

end PlainRequest
