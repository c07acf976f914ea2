/-
# PlainRequest.Settings.Search — which settings hold

The settings are those of the nearest configuration file among the working directory and the
directories above it. If there is none, or if the nearest one does not load, they are those of the
user's own file if it is there and loads, and else the defaults: a file further up is not consulted
once a nearer one was met. A file that is asked for by its path is the only one, and has to load.

What a command gives replaces single settings and leaves the others as they are.
-/

import PlainRequest.Files.Path
import PlainRequest.Settings.Reader

namespace PlainRequest.Settings

/-- The name of a configuration file. -/
def fileName : Text := "restblock.toml".toList

/-- The user's own configuration file, under the home directory. -/
def userFile (home : Text) : Text :=
  Path.join (Path.join (Path.join home ".config".toList) "restblock".toList) fileName

variable {m : Type → Type} [Monad m]

/-- The configuration file of the first directory that has one, whether it loads or not. -/
def nearest? (files : Files m) : List Text → m (Option Text)
  | [] => pure none
  | directory :: others => do
      let path := Path.join directory fileName
      if ← files.isPresent path then pure (some path) else nearest? files others

/-- The settings of a file that may be missing or not load. -/
def loaded? (files : Files m) (path : Text) : m (Option Settings) := do
  let settings ← load files path
  pure settings.toOption

/-- The settings of the nearest configuration file. -/
def ofDirectories? (files : Files m) (workingDirectory : Text) : m (Option Settings) := do
  match ← nearest? files (Path.ancestors workingDirectory) with
  | none => pure none
  | some path => loaded? files path

/-- The settings of the user's own file. -/
def ofUser? (files : Files m) : Option Text → m (Option Settings)
  | none => pure none
  | some home => do
      let path := userFile home
      if ← files.isPresent path then loaded? files path else pure none

/-- The settings that are found without a path. -/
def find? (files : Files m) (workingDirectory : Text) (home : Option Text) :
    m (Option Settings) := do
  match ← ofDirectories? files workingDirectory with
  | some settings => pure (some settings)
  | none => ofUser? files home

/-- The settings to start from: those of the file at a path, or those that are found. -/
def start (files : Files m) (workingDirectory : Text) (home : Option Text) :
    Option Text → m (Except SettingsError Settings)
  | some path => load files path
  | none => do
      let found ← find? files workingDirectory home
      pure (.ok (found.getD {}))

/-! ## What a command gives -/

/-- Settings that a command gives. -/
structure Overrides where
  /-- Do not check certificates. -/
  insecure : Bool := false
  timeoutSeconds : Option Nat := none
  indentWidth : Option Nat := none
  /-- Show characters outside ASCII as they are. -/
  keepUnicode : Bool := false
  deriving DecidableEq, Repr

/-- The settings with what a command gives put in. -/
def override (overrides : Overrides) (settings : Settings) : Settings :=
  { http :=
      { verifyCertificates := settings.http.verifyCertificates && ! overrides.insecure
        timeoutSeconds := overrides.timeoutSeconds.getD settings.http.timeoutSeconds }
    json :=
      { settings.json with
        escapeNonAscii := settings.json.escapeNonAscii && ! overrides.keepUnicode
        indentWidth := overrides.indentWidth.getD settings.json.indentWidth } }

end PlainRequest.Settings
