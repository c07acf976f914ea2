/-
# PlainRequest.Curl.Call — what a curl command asks for

Of the many options of curl five things are understood: `-X` with a method, `-H` with a header, `-d`
with data, `-v`, and one URL. A value may be any word. Headers and `-v` may be repeated; everything
else in a command is refused.
-/

import PlainRequest.Arguments.Reader

namespace PlainRequest.Curl

open Arguments

/-- What an argument of curl is for. -/
inductive Key
  | header
  | verbose
  | data
  | method
  | url
  deriving DecidableEq, Repr

/-- The options and the operand of curl. -/
def grammar : Grammar Key :=
  { options :=
      [ { key := .header, label := "-H <HEADERS>".toList, letter := some 'H'
          kind := .value true, repeatable := true },
        { key := .verbose, label := "-v".toList, letter := some 'v'
          kind := .switch, repeatable := true },
        { key := .data, label := "-d <DATA>".toList, letter := some 'd', kind := .value true },
        { key := .method, label := "-X <METHOD>".toList, letter := some 'X'
          kind := .value true } ]
    operands := [{ key := .url, label := "<URL>".toList, required := true }] }

/-- Why a command cannot be written or read. -/
inductive CommandFault
  /-- The URL holds a NUL, which no shell word can. -/
  | unquotableUrl
  /-- The command ends inside quotes or behind a backslash. -/
  | unbalanced
  /-- The words are not those of a curl command. -/
  | arguments (stop : Stop)
  deriving DecidableEq, Repr

/-- The text of a fault, cut to its first line. -/
def CommandFault.message : CommandFault → Text
  | unquotableUrl => "cannot quote URL: cannot shell-quote string containing nul byte".toList
  | unbalanced => "unbalanced quotes or trailing escape".toList
  | arguments stop => (Text.lines (stop.message ++ ['\n'])).headD []

/-- What a curl command asks for. -/
structure Call where
  method : Option Text
  headers : List Text
  data : Option Text
  url : Text
  deriving DecidableEq, Repr

/-- Read the words behind the command name. -/
def Call.ofWords (words : List Text) : Except Stop Call := do
  let given ← read grammar words
  pure
    { method := valueOf? Key.method given
      headers := valuesOf Key.header given
      data := valueOf? Key.data given
      url := (valueOf? Key.url given).getD [] }

end PlainRequest.Curl
