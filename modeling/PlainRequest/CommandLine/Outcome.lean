/-
# PlainRequest.CommandLine.Outcome — running a command

Running a command reads what it needs from its host, the part of the world that a program sees: files,
directories, standard input, a network. The outcome is an exit code and what is written to the two
outputs. Settings are loaded first, whatever the command; a command that is not understood ends with
code two, one that fails with code one.
-/

import PlainRequest.CommandLine.Invocation
import PlainRequest.CommandLine.Report
import PlainRequest.Execution

namespace PlainRequest.CommandLine

open Text

/-- What a program sees of the world. -/
structure Host (m : Type → Type) where
  files : Files m
  workingDirectory : m Text
  homeDirectory : m (Option Text)
  /-- All of the standard input. -/
  input : m (Except ReadError Bytes)
  /-- The network, used as the settings say. -/
  network : HttpSettings → Network m

/-- What running a program comes to. -/
structure Outcome where
  code : Nat
  output : Text
  errors : Text
  deriving DecidableEq, Repr

/-! ## Lines of a file -/

/-- The index of the line that a command is about: the line that is asked for, or the first that is
not blank. -/
def lineIndex (lines : List Text) : Option Nat → Except CommandError Nat
  | some 0 => throw .lineZero
  | some (n + 1) =>
      if lines.length < n + 1 then throw (.pastEnd (n + 1) lines.length) else pure n
  | none =>
      match Document.firstIndex? lines with
      | some index => pure index
      | none => throw .emptyFile

/-- The block that a command is about. -/
def chosenBlock (lines : List Text) (line : Option Nat) : Except CommandError (List Text) :=
  (lineIndex lines line).map (Document.blockAt lines)

variable {m : Type → Type} [Monad m]

/-- The lines of a file. -/
def readLines (files : Files m) (path : Text) : m (Except CommandError (List Text)) := do
  let text ← files.readText path
  pure ((text.mapError (.unreadableFile path)).map lines)

/-- The lines of a file and the block among them that a command is about. -/
def readBlock (files : Files m) (path : Text) (line : Option Nat) :
    m (Except CommandError (List Text × List Text)) := do
  let document ← readLines files path
  pure do
    let document ← document
    let block ← chosenBlock document line
    pure (document, block)

/-! ## Actions -/

/-- Send a block; the lines to show. -/
def runSend (host : Host m) (settings : Settings) (path : Text) (line : Option Nat) :
    m (Except CommandError (List Text)) := do
  match ← readBlock host.files path line with
  | .error error => pure (.error error)
  | .ok (document, block) =>
      let transport := (host.network settings.http).toTransport
      let rendered ← execute host.files transport settings.json document block
      pure ((rendered.mapError .request).map Rendered.lines)

/-- Write a block as a curl command. -/
def runToCurl (host : Host m) (path : Text) (line : Option Nat) (forHost : Bool) :
    m (Except CommandError (List Text)) := do
  match ← readBlock host.files path line with
  | .error error => pure (.error error)
  | .ok (document, block) =>
      pure (((curlCommand document block).mapError .request).map fun command =>
        [if forHost then Curl.escapeForHost command else command])

/-- The curl command that is given: in words, in a file, or on standard input. -/
def readCommand (host : Host m) (file : Option Text) (line : Option Nat) :
    Option Text → m (Except CommandError Text)
  | some command => pure (.ok command)
  | none =>
      match file with
      | some path => do
          let read ← readBlock host.files path line
          pure (read.map fun (_, block) => Document.commandText block)
      | none => do
          let content ← host.input
          pure (((content.bind textOfBytes).mapError .unreadableInput).map fun text =>
            Document.commandText (lines text))

/-- Read a curl command; the lines of the block for it. -/
def runFromCurl (host : Host m) (file : Option Text) (line : Option Nat) (command : Option Text) :
    m (Except CommandError (List Text)) := do
  let command ← readCommand host file line command
  pure do
    let command ← command
    (Curl.toLines command).mapError .request

/-- Do what is to be done. -/
def runAction (host : Host m) (settings : Settings) : Action → m (Except CommandError (List Text))
  | .send file line => runSend host settings file line
  | .toCurl file line forHost => runToCurl host file line forHost
  | .fromCurl file line command => runFromCurl host file line command

/-- The settings for an invocation. -/
def settingsFor (host : Host m) (invocation : Invocation) : m (Except CommandError Settings) := do
  let workingDirectory ← host.workingDirectory
  let home ← host.homeDirectory
  let start ← Settings.start host.files workingDirectory home invocation.config
  pure ((start.mapError fun error => .request (.settings error)).map
    (Settings.override invocation.overrides))

/-- Do what an invocation asks for; the lines to show. -/
def runInvocation (host : Host m) (invocation : Invocation) :
    m (Except CommandError (List Text)) := do
  match ← settingsFor host invocation with
  | .error error => pure (.error error)
  | .ok settings => runAction host settings invocation.action

/-! ## Outcome -/

namespace Outcome

/-- What the program is for. -/
def description : Text :=
  "Send HTTP requests written as plain-text blocks and translate them to and from curl".toList

/-- How the program is used. -/
def helpLines : List Text :=
  [description, [], "Usage: restblock [OPTIONS] <COMMAND>".toList, [],
    "Commands:".toList,
    "  send       Send the request block around a line of a file".toList,
    "  to-curl    Write a request block as a curl command".toList,
    "  from-curl  Read a curl command as a request block".toList,
    "  help       Show this text".toList, [],
    "Options:".toList,
    "      --config <CONFIG>    The configuration file".toList,
    "  -k, --insecure           Do not check certificates".toList,
    "      --timeout <TIMEOUT>  Seconds until a request is given up".toList,
    "      --indent <INDENT>    Spaces for each level of a JSON response".toList,
    "      --no-escape-unicode  Show characters outside ASCII as they are".toList,
    "  -h, --help               Show this text".toList,
    "  -V, --version            Show the version".toList]

/-- The version of the program. -/
def versionLine : Text := programName ++ " 0.1.0".toList

/-- The outcome of a command line that is not understood, or asks about the program. -/
def ofRefusal : Refusal → Outcome
  | .nothing => ⟨2, [], unlines helpLines⟩
  | .stop .help => ⟨0, unlines helpLines, []⟩
  | .stop .version => ⟨0, unlines [versionLine], []⟩
  | .stop (.fault cause) => ⟨2, [], unlines ["error: ".toList ++ cause.message]⟩

/-- The outcome of an action. -/
def ofResult : Except CommandError (List Text) → Outcome
  | .ok lines => ⟨0, unlines lines, []⟩
  | .error error => ⟨1, [], error.report⟩

end Outcome

/-- Run the program on its words. -/
def run (host : Host m) (words : List Text) : m Outcome :=
  match Invocation.ofWords words with
  | .error refusal => pure (.ofRefusal refusal)
  | .ok invocation => do
      let result ← runInvocation host invocation
      pure (.ofResult result)

end PlainRequest.CommandLine
