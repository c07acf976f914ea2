/-
# PlainRequest.Variable.Table — tokens and the values that replace them

A table maps tokens to values, keeps its tokens distinct, and lists them in the order in which they
first appeared. Overlaying one table on another writes the entries of the upper one in turn.
-/

import PlainRequest.Keyed
import PlainRequest.Text.Basic

namespace PlainRequest

/-- A variable table. -/
structure Table where
  /-- Tokens with their values, in the order the tokens first appeared. -/
  entries : List (Text × Text)
  /-- No token appears twice. -/
  distinct : (entries.map Prod.fst).Nodup

namespace Table

/-- The table without tokens. -/
def empty : Table := ⟨[], by simp⟩

instance : Inhabited Table := ⟨empty⟩

/-- Set the value of a token. -/
def insert (token value : Text) (table : Table) : Table :=
  ⟨Keyed.put token value table.entries, Keyed.nodup_put table.distinct⟩

/-- The value of a token. -/
def get? (table : Table) (token : Text) : Option Text := Keyed.get? token table.entries

/-- Set every token of `upper` to its value there. -/
def overlay (table upper : Table) : Table :=
  ⟨Keyed.putAll upper.entries table.entries, Keyed.nodup_putAll table.distinct⟩

/-- The table that setting the tokens one after another makes. -/
def ofList (entries : List (Text × Text)) : Table :=
  ⟨Keyed.putAll entries [], Keyed.nodup_putAll (by simp)⟩

/-- How many tokens the table has. -/
def size (table : Table) : Nat := table.entries.length

/-- Has the table no token? -/
def isEmpty (table : Table) : Bool := table.entries.isEmpty

/-- Tables are equal when their entries are. -/
@[ext] theorem ext {a b : Table} (h : a.entries = b.entries) : a = b := by
  cases a
  cases b
  simp_all

@[simp] theorem entries_empty : empty.entries = [] := rfl

/-- Setting a token is seen at that token and nowhere else. -/
theorem get?_insert (table : Table) (token value t : Text) :
    (table.insert token value).get? t = if t = token then some value else table.get? t :=
  Keyed.get?_put token t value table.entries

@[simp] theorem overlay_empty (table : Table) : table.overlay empty = table := rfl

end Table

end PlainRequest
