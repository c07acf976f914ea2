/-
# PlainRequest.CommandLine.Invocation — what the words of a command line ask for

There are three subcommands: to send a block, to write it as a curl command, and to read one back.
The options about settings may be given before the subcommand or behind it, and count where they
are given last in that sense: behind it, if they are there.
-/

import PlainRequest.Arguments.Reader
import PlainRequest.CommandLine.Number
import PlainRequest.Settings.Search

namespace PlainRequest.CommandLine

open Arguments Text

/-- What an argument is for. -/
inductive Key
  | config
  | insecure
  | timeout
  | indent
  | keepUnicode
  | file
  | line
  | forHost
  | command
  | help
  | version
  deriving DecidableEq, Repr

/-! ## Grammar -/

/-- The name of the program. -/
def programName : Text := "restblock".toList

/-- A number must read. -/
def checkNumber (word : Text) : Option ValueFault :=
  match readNumber word with
  | .ok _ => none
  | .error fault => some (.unreadable fault.message)

/-- A path must not be empty. -/
def checkPath (word : Text) : Option ValueFault := if word.isEmpty then some .missing else none

/-- The option that asks for help. -/
def helpOption : Parameter Key :=
  { key := .help, label := "--help".toList, letter := some 'h', name := some "help".toList
    kind := .help }

/-- The options about settings. -/
def settingsOptions : List (Parameter Key) :=
  [ { key := .config, label := "--config <CONFIG>".toList, name := some "config".toList
      check := checkPath },
    { key := .insecure, label := "--insecure".toList, letter := some 'k'
      name := some "insecure".toList, kind := .switch },
    { key := .timeout, label := "--timeout <TIMEOUT>".toList, name := some "timeout".toList
      check := checkNumber },
    { key := .indent, label := "--indent <INDENT>".toList, name := some "indent".toList
      check := checkNumber },
    { key := .keepUnicode, label := "--no-escape-unicode".toList
      name := some "no-escape-unicode".toList, kind := .switch } ]

/-- The option that chooses a line. -/
def lineOption : Parameter Key :=
  { key := .line, label := "--line <LINE>".toList, letter := some 'l', name := some "line".toList
    check := checkNumber }

/-- A file that has to be given. -/
def requiredFile : Parameter Key :=
  { key := .file, label := "<FILE>".toList, required := true, check := checkPath }

/-- The subcommands. -/
inductive Subcommand
  | send
  | toCurl
  | fromCurl
  | help
  deriving DecidableEq, Repr

/-- The word for a subcommand. -/
def Subcommand.word : Subcommand → Text
  | send => "send".toList
  | toCurl => "to-curl".toList
  | fromCurl => "from-curl".toList
  | help => "help".toList

/-- Every subcommand. -/
def Subcommand.all : List Subcommand := [.send, .toCurl, .fromCurl, .help]

/-- What may stand before a subcommand. -/
def outerGrammar : Grammar Key :=
  { options := settingsOptions ++
      [ helpOption,
        { key := .version, label := "--version".toList, letter := some 'V'
          name := some "version".toList, kind := .version } ]
    subcommands := Subcommand.all.map Subcommand.word }

/-- What may stand behind a subcommand. -/
def innerGrammar : Subcommand → Grammar Key
  | .send => { options := lineOption :: settingsOptions ++ [helpOption], operands := [requiredFile] }
  | .toCurl =>
      { options :=
          [ lineOption,
            { key := .forHost, label := "--escape-for-host".toList
              name := some "escape-for-host".toList, kind := .switch } ]
          ++ settingsOptions ++ [helpOption]
        operands := [requiredFile] }
  | .fromCurl =>
      { options :=
          [ lineOption,
            { key := .command, label := "--command <COMMAND>".toList, letter := some 'c'
              name := some "command".toList } ]
          ++ settingsOptions ++ [helpOption]
        operands := [{ key := .file, label := "[FILE]".toList, check := checkPath }] }
  | .help => { options := [], subcommands := Subcommand.all.map Subcommand.word }

/-! ## Invocation -/

/-- What is to be done. Lines are counted from one. -/
inductive Action
  | send (file : Text) (line : Option Nat)
  | toCurl (file : Text) (line : Option Nat) (forHost : Bool)
  | fromCurl (file : Option Text) (line : Option Nat) (command : Option Text)
  deriving DecidableEq, Repr

/-- What a command line asks for. -/
structure Invocation where
  action : Action
  /-- The configuration file that is asked for. -/
  config : Option Text
  overrides : Settings.Overrides
  deriving DecidableEq, Repr

/-- Why a command line asks for nothing that can be done. -/
inductive Refusal
  | stop (stop : Stop)
  /-- Nothing is asked for at all. -/
  | nothing
  deriving DecidableEq, Repr

/-- The number of a parameter. -/
def numberOf? (key : Key) (given : List (Key × Text)) : Option Nat :=
  (valueOf? key given).bind fun word => (readNumber word).toOption

namespace Invocation

/-- What is to be done, for a subcommand and the parameters behind it. -/
def actionOf (given : List (Key × Text)) : Subcommand → Option Action
  | .send => (valueOf? Key.file given).map fun file => .send file (numberOf? .line given)
  | .toCurl =>
      (valueOf? Key.file given).map fun file =>
        .toCurl file (numberOf? .line given) (isGiven .forHost given)
  | .fromCurl =>
      some (.fromCurl (valueOf? .file given) (numberOf? .line given) (valueOf? .command given))
  | .help => none

/-- What is asked for, by the parameters before and behind a subcommand. -/
def ofGiven (outer inner : List (Key × Text)) (action : Action) : Invocation :=
  let isAnywhere := fun key => isGiven key inner || isGiven key outer
  { action
    config := (valueOf? .config inner).or (valueOf? .config outer)
    overrides :=
      { insecure := isAnywhere .insecure
        timeoutSeconds := (numberOf? .timeout inner).or (numberOf? .timeout outer)
        indentWidth := (numberOf? .indent inner).or (numberOf? .indent outer)
        keepUnicode := isAnywhere .keepUnicode } }

/-- The first of the words behind `help` that help cannot be about: it is about one subcommand. -/
def unknownTopic? : List Text → Option Text
  | [] => none
  | topic :: others =>
      if (Subcommand.all.map Subcommand.word).contains topic then others.head? else some topic

/-- Read the words behind a subcommand. -/
def readInner (subcommand : Subcommand) (words : List Text) : Except Stop (List (Key × Text)) :=
  match subcommand with
  | .help =>
      match unknownTopic? words with
      | some word => throw (.fault (.unknownSubcommand word))
      | none => throw .help
  | _ => read (innerGrammar subcommand) words

/-- Read words, the program's name left out. -/
def ofWords (words : List Text) : Except Refusal Invocation := do
  let (reading, found) ← (Reading.readWords outerGrammar {} words).mapError .stop
  match found with
  | none =>
      let outer ← (reading.finish outerGrammar).mapError .stop
      if outer.isEmpty then throw .nothing
      else throw (.stop (.fault (.missingSubcommand programName)))
  | some (word, rest) =>
      match Subcommand.all.find? (·.word = word) with
      | none => throw (.stop (.fault (.unknownSubcommand word)))
      | some subcommand =>
          let inner ← (readInner subcommand rest).mapError .stop
          let outer ← (reading.finish outerGrammar).mapError .stop
          match actionOf inner subcommand with
          | none => throw .nothing
          | some action => pure (ofGiven outer inner action)

end Invocation

end PlainRequest.CommandLine
