/-
# PlainRequest.Settings.Reader — settings from a configuration text

A setting that the text leaves out keeps its default, and keys that are no settings are passed over.
A group of settings may also be given as an array: its items are the settings of the group in order,
the missing ones default, and further items are passed over. A date in the place of a group has no
keys, so it leaves all defaults.
-/

import PlainRequest.Files.Basic
import PlainRequest.Settings.Basic
import PlainRequest.Toml.Reader

namespace PlainRequest

/-- Why there are no settings. -/
inductive SettingsError
  /-- The file cannot be read. -/
  | unreadable (path : Text) (error : ReadError)
  /-- The text is no configuration text. -/
  | malformed
  /-- A setting has a value of the wrong kind. -/
  | wrongKind
  deriving DecidableEq, Repr

/-- The text of a settings error. Where a text cannot be read as settings, one fixed sentence for each of
the two kinds stands in place of what a parser would say in detail, such as the line and the column. -/
def SettingsError.message : SettingsError → Text
  | unreadable path error =>
      "Failed to read config file ".toList ++ path ++ ": ".toList ++ error.message
  | malformed => "Failed to parse config file: the text is malformed".toList
  | wrongKind => "Failed to parse config file: a setting has the wrong kind".toList

namespace Settings

open Toml

/-- The largest number a setting can be. -/
def maxNumber : Nat := 18446744073709551615

/-- A setting that is true or false. -/
def flag? : Toml → Option Bool
  | .boolean value => some value
  | _ => none

/-- A setting that is a number. -/
def number? : Toml → Option Nat
  | .integer value => if 0 ≤ value ∧ value ≤ maxNumber then some value.toNat else none
  | _ => none

/-- A setting that is a text. -/
def text? : Toml → Option Text
  | .string text => some text
  | _ => none

mutual

/-- Can the value be passed over? Its numbers must fit, wherever they stand. -/
def isIgnorable : Toml → Bool
  | .integer value => - (Nat.pow 2 127 : Int) ≤ value && value < (Nat.pow 2 128 : Int)
  | .float inRange => inRange
  | .array items => areIgnorable items
  | .tables rows => areIgnorable rows
  | .table _ entries => entriesAreIgnorable entries
  | _ => true

/-- Can all the values be passed over? -/
def areIgnorable : List Toml → Bool
  | [] => true
  | item :: items => isIgnorable item && areIgnorable items

/-- Can the values of all the entries be passed over? -/
def entriesAreIgnorable : List (Text × Toml) → Bool
  | [] => true
  | (_, value) :: entries => isIgnorable value && entriesAreIgnorable entries

end

/-- The value of a key, or the default where the key is missing. -/
def keyOr {α : Type} (read : Toml → Option α) (key : Text) (default : α) (entries : Entries) :
    Option α :=
  match entry? key entries with
  | none => some default
  | some value => read value

/-- The item at an index, or the default past the end. -/
def itemOr {α : Type} (read : Toml → Option α) (index : Nat) (default : α) (items : List Toml) :
    Option α :=
  match items[index]? with
  | none => some default
  | some value => read value

/-- Can all entries under other keys be passed over? -/
def othersIgnorable (keys : List Text) (entries : Entries) : Bool :=
  entriesAreIgnorable (entries.filter fun (key, _) => ! keys.contains key)

/-- A group of settings: from a table by key, or from an array by position. -/
def group? {α : Type} (keys : List Text) (ofTable : Entries → Option α)
    (ofItems : List Toml → Option α) (default : α) : Toml → Option α
  | .table _ entries => if othersIgnorable keys entries then ofTable entries else none
  | .array items => ofItems items
  | .tables rows => ofItems rows.reverse
  | .datetime => some default
  | _ => none

/-- The keys of the settings for sending, in order. -/
def httpKeys : List Text := ["verify_ssl".toList, "timeout_secs".toList]

/-- The settings for sending. -/
def http? : Toml → Option HttpSettings :=
  group? httpKeys
    (fun entries => do
      let verify ← keyOr flag? "verify_ssl".toList true entries
      let timeout ← keyOr number? "timeout_secs".toList 30 entries
      pure ⟨verify, timeout⟩)
    (fun items => do
      let verify ← itemOr flag? 0 true items
      let timeout ← itemOr number? 1 30 items
      pure ⟨verify, timeout⟩)
    {}

/-- The keys of the settings for JSON, in order. -/
def jsonKeys : List Text :=
  ["escape_non_ascii".toList, "indent_width".toList, "syntax".toList]

/-- The settings for JSON. -/
def json? : Toml → Option JsonSettings :=
  group? jsonKeys
    (fun entries => do
      let escape ← keyOr flag? "escape_non_ascii".toList true entries
      let indent ← keyOr number? "indent_width".toList 2 entries
      let language ← keyOr text? "syntax".toList "json".toList entries
      pure ⟨escape, indent, language⟩)
    (fun items => do
      let escape ← itemOr flag? 0 true items
      let indent ← itemOr number? 1 2 items
      let language ← itemOr text? 2 "json".toList items
      pure ⟨escape, indent, language⟩)
    {}

/-- The settings that entries give. -/
def ofEntries? (entries : Entries) : Option Settings := do
  let http ← keyOr http? "http".toList {} entries
  let json ← keyOr json? "json".toList {} entries
  if othersIgnorable ["http".toList, "json".toList] entries then pure ⟨http, json⟩ else none

/-- The settings that a configuration text gives. -/
def ofText (text : Text) : Except SettingsError Settings :=
  match Toml.ofText? text with
  | none => throw .malformed
  | some entries =>
      match ofEntries? entries with
      | none => throw .wrongKind
      | some settings => pure settings

/-- The settings in the file at a path. -/
def load {m : Type → Type} [Monad m] (files : Files m) (path : Text) :
    m (Except SettingsError Settings) := do
  match ← files.readText path with
  | .error error => pure (throw (.unreadable path error))
  | .ok text => pure (ofText text)

end Settings

end PlainRequest
