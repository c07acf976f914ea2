/-
# PlainRequest.Arguments.Reader — the words of a command, read by a grammar

Words are read one after another. An option with a value keeps waiting for it; an option or operand
that has its value is settled only when the next one comes or the words end, which decides the
fault that a command with several is blamed for. A word `--` makes operands of all words behind it,
unless it is itself the value of an option that takes any word.
-/

import PlainRequest.Arguments.Grammar

namespace PlainRequest.Arguments

open Text

variable {κ : Type} [DecidableEq κ]

/-- What has been read. -/
structure Reading (κ : Type) where
  /-- The settled options and operands with their values, in order. -/
  settled : List (κ × Text) := []
  /-- The parameter read last, with its value if that has come. -/
  pending : Option (Parameter κ × Option Text) := none
  /-- How many operands have been read. -/
  operandCount : Nat := 0
  /-- Are all further words operands? -/
  operandsOnly : Bool := false

namespace Reading

/-- The option whose value must come next. -/
def waiting? (reading : Reading κ) : Option (Parameter κ) :=
  match reading.pending with
  | some (parameter, none) => some parameter
  | _ => none

/-- Note a parameter and its value. -/
def give (reading : Reading κ) (parameter : Parameter κ) (value : Text) :
    Except Stop (Reading κ) :=
  match parameter.kind with
  | .help => throw .help
  | .version => throw .version
  | _ =>
      if ! parameter.repeatable && (reading.settled.map Prod.fst).contains parameter.key then
        throw (.fault (.repeated parameter.label))
      else
        match parameter.check value with
        | some .missing => throw (.fault (.missingValue parameter.label))
        | some (.unreadable reason) =>
            throw (.fault (.invalidValue value parameter.label reason))
        | none =>
            pure { reading with settled := reading.settled ++ [(parameter.key, value)] }

/-- Settle the parameter read last. -/
def settle (reading : Reading κ) : Except Stop (Reading κ) :=
  match reading.pending with
  | none => pure reading
  | some (parameter, none) => throw (.fault (.missingValue parameter.label))
  | some (parameter, some value) => give { reading with pending := none } parameter value

/-- Read an option, with the value that is attached to it, if one is. -/
def readOption (reading : Reading κ) (parameter : Parameter κ) (attached : Option Text) :
    Except Stop (Reading κ) := do
  match parameter.kind, attached with
  | .value _, none =>
      let settled ← reading.settle
      pure { settled with pending := some (parameter, none) }
  | .value _, some value =>
      let settled ← reading.settle
      settled.give parameter value
  | _, some value => throw (.fault (.unneededValue value parameter.label))
  | _, none =>
      let settled ← reading.settle
      settled.give parameter []

/-- Read what stands behind two dashes: a name, and a value behind an equals sign. -/
def readName (grammar : Grammar κ) (reading : Reading κ) (word : Text) :
    Except Stop (Reading κ) :=
  let (name, attached) := match splitFirst? '=' word with
    | some (name, value) => (name, some value)
    | none => (word, none)
  match grammar.options.find? (·.name = some name) with
  | some parameter => reading.readOption parameter attached
  | none => throw (.fault (.unexpected ("--".toList ++ name)))

/-- Read what stands behind one dash: letters, of which one that takes a value takes the rest of
the word, an equals sign before it left out. -/
def readLetters (grammar : Grammar κ) (reading : Reading κ) : Text → Except Stop (Reading κ)
  | [] => pure reading
  | letter :: rest =>
      match grammar.options.find? (·.letter = some letter) with
      | none => throw (.fault (.unexpected ['-', letter]))
      | some parameter =>
          match parameter.kind with
          | .value _ =>
              let attached := if rest.isEmpty then none else some ((stripPrefix? ['='] rest).getD rest)
              reading.readOption parameter attached
          | _ => do
              let next ← reading.readOption parameter none
              readLetters grammar next rest

/-- Read an operand. -/
def readOperand (grammar : Grammar κ) (reading : Reading κ) (word : Text) :
    Except Stop (Reading κ) :=
  match grammar.operands[reading.operandCount]? with
  | some parameter => do
      let settled ← reading.settle
      pure
        { settled with
          pending := some (parameter, some word)
          operandCount := reading.operandCount + 1 }
  | none =>
      if grammar.subcommands.isEmpty || reading.operandsOnly && grammar.subcommands.contains word
      then throw (.fault (.unexpected word))
      else throw (.fault (.unknownSubcommand word))

/-- Is the option whose value must come one that takes any word? -/
def takesAnyWord (reading : Reading κ) : Bool :=
  reading.waiting?.any fun parameter => parameter.kind = .value true

/-- Read a word that is no option: a value that is waited for, or an operand. -/
def readPlain (grammar : Grammar κ) (reading : Reading κ) (word : Text) :
    Except Stop (Reading κ) :=
  match reading.waiting? with
  | some parameter => pure { reading with pending := some (parameter, some word) }
  | none => reading.readOperand grammar word

/-- Read one word. -/
def readWord (grammar : Grammar κ) (reading : Reading κ) (word : Text) :
    Except Stop (Reading κ) :=
  if reading.operandsOnly then reading.readOperand grammar word
  else if reading.takesAnyWord then reading.readPlain grammar word
  else
    match word with
    | ['-', '-'] => pure { reading with operandsOnly := true }
    | '-' :: '-' :: name => reading.readName grammar name
    | '-' :: letter :: rest => reading.readLetters grammar (letter :: rest)
    | _ => reading.readPlain grammar word

/-- Is the word, in its place, the name of a subcommand? -/
def isSubcommand (grammar : Grammar κ) (reading : Reading κ) (word : Text) : Bool :=
  ! reading.operandsOnly && reading.waiting?.isNone && grammar.subcommands.contains word

/-- Read words up to the first subcommand; what is read, and the subcommand with the words behind
it. -/
def readWords (grammar : Grammar κ) (reading : Reading κ) :
    List Text → Except Stop (Reading κ × Option (Text × List Text))
  | [] => pure (reading, none)
  | word :: rest =>
      if reading.isSubcommand grammar word then pure (reading, some (word, rest))
      else do
        let next ← reading.readWord grammar word
        readWords grammar next rest

/-- The given parameters, once all words are read; every required operand must be among them. -/
def finish (grammar : Grammar κ) (reading : Reading κ) : Except Stop (List (κ × Text)) := do
  let last ← reading.settle
  let given := last.settled
  if grammar.operands.all fun parameter =>
      ! parameter.required || (given.map Prod.fst).contains parameter.key
  then pure given
  else throw (.fault .missingOperand)

end Reading

/-- Read all words of a command without subcommands. -/
def read (grammar : Grammar κ) (words : List Text) : Except Stop (List (κ × Text)) := do
  let (reading, _) ← Reading.readWords grammar {} words
  reading.finish grammar

/-- The last value of a parameter. -/
def valueOf? (key : κ) (given : List (κ × Text)) : Option Text :=
  (given.findRev? (·.1 = key)).map Prod.snd

/-- Every value of a parameter, in order. -/
def valuesOf (key : κ) (given : List (κ × Text)) : List Text :=
  given.filterMap fun (k, value) => if k = key then some value else none

/-- Was the parameter given? -/
def isGiven (key : κ) (given : List (κ × Text)) : Bool := (given.map Prod.fst).contains key

end PlainRequest.Arguments
