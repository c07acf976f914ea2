/-
# PlainRequest.Json.Printer — JSON values written for reading

Every item and every member has a line of its own, indented by its depth, with one space behind the
colon of a member; empty containers stay on one line. In strings only the quotation mark, the
backslash and the characters below U+0020 are escaped, and on request every character outside ASCII,
by its UTF-16 code units. Since line feeds in strings are escaped, the only line feeds written are
those between lines.
-/

import PlainRequest.Json.Reader

namespace PlainRequest.Json

open Text

/-- How values are written. -/
structure Style where
  /-- Spaces for each level of depth. -/
  indent : Nat
  /-- Write characters outside ASCII as escapes. -/
  escapeNonAscii : Bool
  deriving DecidableEq, Repr

/-- The escape of one UTF-16 code unit. -/
def unitEscape (value : Nat) : Text := ['\\', 'u'] ++ hexFour value

/-- The escapes of a character: one, or two surrogates past U+FFFF. -/
def utf16Escape (c : Char) : Text :=
  let n := c.toNat
  if n < 0x10000 then unitEscape n
  else unitEscape (0xD800 + (n - 0x10000) / 0x400) ++ unitEscape (0xDC00 + (n - 0x10000) % 0x400)

/-- A character as it stands in a string. -/
def writeChar (escapeNonAscii : Bool) (c : Char) : Text :=
  if c = '"' then ['\\', '"']
  else if c = '\\' then ['\\', '\\']
  else if c = '\x08' then ['\\', 'b']
  else if c = '\x0c' then ['\\', 'f']
  else if c = '\n' then ['\\', 'n']
  else if c = '\r' then ['\\', 'r']
  else if c = '\t' then ['\\', 't']
  else if c.toNat < 0x20 then unitEscape c.toNat
  else if escapeNonAscii && 0x80 ≤ c.toNat then utf16Escape c
  else [c]

/-- A string with its quotation marks. -/
def writeString (escapeNonAscii : Bool) (text : Text) : Text :=
  ['"'] ++ text.flatMap (writeChar escapeNonAscii) ++ ['"']

/-- The start of a line at a depth. -/
def newline (style : Style) (depth : Nat) : Text :=
  '\n' :: List.replicate (style.indent * depth) ' '

mutual

/-- A value, at a depth. -/
def write (style : Style) (depth : Nat) : Json → Text
  | .null => "null".toList
  | .bool true => "true".toList
  | .bool false => "false".toList
  | .number spelling => spelling
  | .string text => writeString style.escapeNonAscii text
  | .array [] => "[]".toList
  | .array (item :: items) =>
      ['['] ++ newline style (depth + 1) ++ write style (depth + 1) item
        ++ writeItems style (depth + 1) items ++ newline style depth ++ [']']
  | .object [] => ['{', '}']
  | .object ((key, value) :: members) =>
      ['{'] ++ newline style (depth + 1) ++ writeString style.escapeNonAscii key ++ ": ".toList
        ++ write style (depth + 1) value ++ writeMembers style (depth + 1) members
        ++ newline style depth ++ ['}']

/-- The items behind the first. -/
def writeItems (style : Style) (depth : Nat) : List Json → Text
  | [] => []
  | item :: items =>
      [','] ++ newline style depth ++ write style depth item ++ writeItems style depth items

/-- The members behind the first. -/
def writeMembers (style : Style) (depth : Nat) : List (Text × Json) → Text
  | [] => []
  | (key, value) :: members =>
      [','] ++ newline style depth ++ writeString style.escapeNonAscii key ++ ": ".toList
        ++ write style depth value ++ writeMembers style depth members

end

/-- A JSON text in the given style; nothing for a text that is not JSON. -/
def reformat? (style : Style) (text : Text) : Option Text := (ofText? text).map (write style 0)

end PlainRequest.Json
