/-
# PlainRequest.CommandLine.Report — failures as the user is told of them

A command fails with a request, or because of the files and lines it is about. The report names what
failed and, below it, the causes: a single one by itself, several with their numbers.
-/

import PlainRequest.Failure

namespace PlainRequest.CommandLine

open Text

/-- Why a command fails. -/
inductive CommandError
  /-- With a request. -/
  | request (failure : Failure)
  /-- A file cannot be read. -/
  | unreadableFile (path : Text) (error : ReadError)
  /-- The standard input cannot be read. -/
  | unreadableInput (error : ReadError)
  /-- Line zero is asked for. -/
  | lineZero
  /-- A line is asked for that the file does not have. -/
  | pastEnd (line count : Nat)
  /-- The file has no line that is not blank. -/
  | emptyFile
  deriving DecidableEq, Repr

namespace CommandError

/-- The text of an error. -/
def message : CommandError → Text
  | request failure => failure.message
  | unreadableFile path _ => "Failed to read ".toList ++ path
  | unreadableInput _ => "Failed to read curl command from stdin".toList
  | lineZero => "Line numbers start at 1".toList
  | pastEnd line count =>
      "Line ".toList ++ Nat.toDigits 10 line ++ " is past the end of the file (".toList
        ++ Nat.toDigits 10 count ++ " lines)".toList
  | emptyFile => "File is empty".toList

/-- What lies behind an error, the nearest cause first. -/
def causes : CommandError → List Text
  | request failure => failure.causes
  | unreadableFile _ error | unreadableInput error => [error.message]
  | _ => []

/-- A number, filled up with spaces to five characters. -/
def padded (number : Nat) : Text :=
  let digits := Nat.toDigits 10 number
  List.replicate (5 - digits.length) ' ' ++ digits

/-- The lines for causes. -/
def causeLines : List Text → List Text
  | [] => []
  | [cause] => ["    ".toList ++ cause]
  | causes => causes.mapIdx fun number cause => padded number ++ ": ".toList ++ cause

/-- The report of an error. -/
def report (error : CommandError) : Text :=
  let causes := error.causes
  let heading := "Error: ".toList ++ error.message
  unlines (heading :: if causes.isEmpty then [] else [] :: "Caused by:".toList :: causeLines causes)

end CommandError

end PlainRequest.CommandLine
