/-
# PlainRequest.Toml.Table — adding to tables

No key is written twice, and a table is written in one place. A header may give a table that so far
only enclosed others its own keys. A dotted key may add only to tables that dotted keys made, passing
on the way through tables that have no header. Nothing is ever added to a table between braces or to
an array between brackets; a header or a dotted key that names the tables of a double-bracket header
means the last of them.
-/

import PlainRequest.Toml.Value

namespace PlainRequest.Toml

/-- The entries of a table. -/
abbrev Entries := List (Text × Toml)

/-- A table and how it came about. -/
structure Place where
  origin : Origin
  entries : Entries

/-- Replace the value of a key that is there, or add the key at the end. -/
def setEntry (key : Text) (value : Toml) : Entries → Entries
  | [] => [(key, value)]
  | (k, v) :: rest => if k = key then (key, value) :: rest else (k, v) :: setEntry key value rest

/-- The value of a key. -/
def entry? (key : Text) (entries : Entries) : Option Toml := entries.lookup key

/-- Does a dotted key pass through the table? -/
def Origin.allowsDotted : Origin → Bool
  | .enclosing | .dotted => true
  | .header | .inline => false

/-- Change the table that a path of keys leads to, making the tables that are missing. With
`byDots` the path belongs to a dotted key, else to a header. -/
def alter (byDots : Bool) (change : Place → Option Entries) (place : Place) :
    List Text → Option Entries
  | [] => change place
  | key :: path =>
      match entry? key place.entries with
      | none => do
          let origin := if byDots then .dotted else .enclosing
          let inner ← alter byDots change ⟨origin, []⟩ path
          pure (setEntry key (.table origin inner) place.entries)
      | some (.table origin entries) =>
          if origin = .inline || byDots && ! origin.allowsDotted then none
          else do
            let inner ← alter byDots change ⟨origin, entries⟩ path
            pure (setEntry key (.table origin inner) place.entries)
      | some (.tables (.table origin entries :: earlier)) => do
          let inner ← alter byDots change ⟨origin, entries⟩ path
          pure (setEntry key (.tables (.table origin inner :: earlier)) place.entries)
      | some _ => none

/-- Add a key that is not there yet. -/
def addNew (key : Text) (value : Toml) (entries : Entries) : Option Entries :=
  match entry? key entries with
  | none => some (setEntry key value entries)
  | some _ => none

/-- Add the value of a possibly dotted key to a table. -/
def addValue (path : List Text) (key : Text) (value : Toml) (place : Place) : Option Entries :=
  alter true
    (fun target =>
      if (target.origin = .dotted) = (path ≠ []) then addNew key value target.entries else none)
    place path

/-- Open a table by its header: a new one, or one that so far only enclosed others. -/
def openTable (path : List Text) (key : Text) (root : Place) : Option Entries :=
  alter false
    (fun target =>
      match entry? key target.entries with
      | none => some (setEntry key (.table .header []) target.entries)
      | some (.table .enclosing entries) =>
          some (setEntry key (.table .header entries) target.entries)
      | some _ => none)
    root path

/-- Open one more table by a header in double brackets. -/
def openRow (path : List Text) (key : Text) (root : Place) : Option Entries :=
  alter false
    (fun target =>
      match entry? key target.entries with
      | none => some (setEntry key (.tables [.table .header []]) target.entries)
      | some (.tables rows) =>
          some (setEntry key (.tables (.table .header [] :: rows)) target.entries)
      | some _ => none)
    root path

/-- Add the value of a possibly dotted key to the table of the current header. -/
def addUnder (header path : List Text) (key : Text) (value : Toml) (root : Place) :
    Option Entries :=
  alter false (addValue path key value) root header

end PlainRequest.Toml
