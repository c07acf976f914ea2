/-
# PlainRequest.Arguments.Grammar — what the words of a command may be

A grammar lists the options of a command and its operands in order. Options may have a letter, a
name, or both. An option either stands alone or takes one value; some take any word as their value,
even one that looks like an option. An option that is not repeatable may be given once.

The faults are what can be wrong with the words of a command, and `Fault.message` is how each is
told.
-/

import PlainRequest.Text.Terminal

namespace PlainRequest.Arguments

/-- What an option does. -/
inductive Kind
  /-- It stands alone. -/
  | switch
  /-- It takes a value, and with `anyWord` the next word whatever it looks like. -/
  | value (anyWord : Bool)
  /-- It asks for the help text and ends the reading of words. -/
  | help
  /-- It asks for the version and ends the reading of words. -/
  | version
  deriving DecidableEq, Repr

/-- Why a word cannot be the value of an option or operand. -/
inductive ValueFault
  /-- The word is empty. -/
  | missing
  /-- The word does not read, for this reason. -/
  | unreadable (reason : Text)
  deriving DecidableEq, Repr

/-- An option or an operand. -/
structure Parameter (κ : Type) where
  /-- What the parameter is for. -/
  key : κ
  /-- How messages call it. -/
  label : Text
  /-- The letter behind one dash. -/
  letter : Option Char := none
  /-- The name behind two dashes. -/
  name : Option Text := none
  kind : Kind := .value false
  repeatable : Bool := false
  /-- Must it be given? -/
  required : Bool := false
  /-- What is wrong with a value, if anything is. -/
  check : Text → Option ValueFault := fun _ => none

/-- The options, the operands in order, and the names of the subcommands. -/
structure Grammar (κ : Type) where
  options : List (Parameter κ)
  operands : List (Parameter κ) := []
  subcommands : List Text := []

/-- What can be wrong with the words of a command. -/
inductive Fault
  /-- A word that nothing accepts. -/
  | unexpected (word : Text)
  /-- A parameter without its value. -/
  | missingValue (label : Text)
  /-- An option given twice. -/
  | repeated (label : Text)
  /-- A value for an option that stands alone. -/
  | unneededValue (value label : Text)
  /-- A value that does not read. -/
  | invalidValue (value label reason : Text)
  /-- A required operand was not given. -/
  | missingOperand
  /-- The word in the place of a subcommand is none. -/
  | unknownSubcommand (word : Text)
  /-- There are options but no subcommand. -/
  | missingSubcommand (program : Text)
  deriving DecidableEq, Repr

/-- Why reading the words of a command stops. -/
inductive Stop
  | fault (cause : Fault)
  | help
  | version
  deriving DecidableEq, Repr

/-- The text of a fault. Words are shown without what would control a terminal. -/
def Fault.message : Fault → Text
  | unexpected word => "unexpected argument '".toList ++ Text.shown word ++ "' found".toList
  | missingValue label =>
      "a value is required for '".toList ++ label ++ "' but none was supplied".toList
  | repeated label =>
      "the argument '".toList ++ label ++ "' cannot be used multiple times".toList
  | unneededValue value label =>
      "unexpected value '".toList ++ Text.shown value ++ "' for '".toList ++ label
        ++ "' found; no more were expected".toList
  | invalidValue value label reason =>
      "invalid value '".toList ++ Text.shown value ++ "' for '".toList ++ label ++ "': ".toList ++ reason
  | missingOperand => "the following required arguments were not provided:".toList
  | unknownSubcommand word => "unrecognized subcommand '".toList ++ Text.shown word ++ ['\'']
  | missingSubcommand program =>
      ['\''] ++ program ++ "' requires a subcommand but one was not provided".toList

/-- The text of what stopped the reading; a wish for help or the version has none. -/
def Stop.message : Stop → Text
  | fault cause => cause.message
  | help | version => []

end PlainRequest.Arguments
