/-
# PlainRequest.Proofs.Variable.Overlay — tables that are laid over each other

A table is made by setting tokens and by laying tables over tables, which are made in the same way. Of all
that is written on the way, in the order in which it was written, a table shows the tokens at their first
places and with their last values. So it does not matter how the writing was put together: three tables
may be laid over each other from below or from above, and a table of declarations may be made in two
parts. It is the order of the entries for which this takes a proof, since a token that two of the tables
have stands where the lower one has it.
-/

import PlainRequest.Proofs.Document.NormalForm
import PlainRequest.Proofs.Variable.Segmentation

namespace PlainRequest.Table

open Text Declaration Keyed

/-! ## How a table is made -/

/-- What has been done to make a table. -/
inductive History
  /-- Nothing, so the table is empty. -/
  | start
  /-- A token has been set to a value. -/
  | insert (before : History) (token value : Text)
  /-- Another table has been laid over. -/
  | overlay (before upper : History)

namespace History

/-- The table that is made. -/
def table : History → Table
  | start => Table.empty
  | insert before token value => before.table.insert token value
  | overlay before upper => before.table.overlay upper.table

/-- The values that are written at tokens, one after another. -/
def writes : History → List (Text × Text)
  | start => []
  | insert before token value => before.writes ++ [(token, value)]
  | overlay before upper => before.writes ++ upper.writes

/-- **A table shows what was written**: first places and last values. -/
theorem lastWins (history : History) : LastWins history.writes history.table.entries := by
  induction history with
  | start => exact lastWins_nil
  | insert before token value ih => exact lastWins_put ih token value
  | overlay before upper ih ihUpper => exact ih.append ihUpper

end History

/-! ## Tokens keep their places -/

theorem tokens_insert_of_mem {table : Table} {token : Text} (h : token ∈ table.tokens)
    (value : Text) : (table.insert token value).tokens = table.tokens :=
  (keys_put token value table.entries).trans (if_pos h)

theorem tokens_prefix_overlay (table upper : Table) :
    table.tokens <+: (table.overlay upper).tokens :=
  keys_prefix_putAll upper.entries table.entries

/-! ## Laws of laying over -/

/-- **From below or from above.** -/
theorem overlay_assoc (a b c : Table) : (a.overlay b).overlay c = a.overlay (b.overlay c) :=
  Table.ext (putAll_putAll b.distinct c.entries a.entries).symm

theorem empty_overlay (table : Table) : empty.overlay table = table := by
  apply Table.ext
  show putAll table.entries [] = table.entries
  exact putAll_of_nodup table.distinct

/-- The upper table decides, where it has the token. -/
theorem get?_overlay (table upper : Table) (token : Text) :
    (table.overlay upper).get? token = (upper.get? token).or (table.get? token) := by
  show Keyed.get? token (putAll upper.entries table.entries) = _
  rw [get?_putAll, ← get?_eq_last? upper.distinct]
  rfl

/-- **Entries in two parts**: the later ones are laid over the earlier ones. -/
theorem ofList_append (entries more : List (Text × Text)) :
    ofList (entries ++ more) = (ofList entries).overlay (ofList more) := by
  have hempty : (([] : List (Text × Text)).map Prod.fst).Nodup := List.nodup_nil
  apply Table.ext
  show putAll (entries ++ more) [] = putAll (putAll more []) (putAll entries [])
  rw [putAll_append, putAll_putAll hempty]
  rfl

theorem ofDeclarations_collect_append (scope : Scope) (lines more : List Text) :
    ofDeclarations (collect scope (lines ++ more)) =
      (ofDeclarations (collect scope lines)).overlay (ofDeclarations (collect scope more)) := by
  rw [ofDeclarations, collect_append, List.map_append, ofList_append]
  rfl

/-- **What tables are.** However tokens have been set and tables laid over tables, a table has every token
once, at the place where it was written first and with the value that was written last. Setting a token
that is there moves no token, nor does laying a table over. To lay tables over each other is associative,
entry by entry and with the entries in the same order, and the empty table changes nothing on either side.
A token has its value in the upper table or, if it has none there, its value in the lower one. And what
lines and further lines declare is what the further lines declare, laid over what the lines declare. -/
theorem overlay_monoid :
    (∀ history : History, LastWins history.writes history.table.entries ∧
      ∀ token, history.table.get? token = last? token history.writes) ∧
    (∀ (table : Table) (token value : Text),
      token ∈ table.tokens → (table.insert token value).tokens = table.tokens) ∧
    (∀ table upper : Table, table.tokens <+: (table.overlay upper).tokens) ∧
    (∀ a b c : Table, (a.overlay b).overlay c = a.overlay (b.overlay c)) ∧
    (∀ table : Table, table.overlay empty = table ∧ empty.overlay table = table) ∧
    (∀ (table upper : Table) (token : Text),
      (table.overlay upper).get? token = (upper.get? token).or (table.get? token)) ∧
    ∀ (scope : Scope) (lines more : List Text),
      ofDeclarations (collect scope (lines ++ more)) =
        (ofDeclarations (collect scope lines)).overlay (ofDeclarations (collect scope more)) := by
  refine ⟨?_, ?_, tokens_prefix_overlay, overlay_assoc, ?_, get?_overlay,
    ofDeclarations_collect_append⟩
  · intro history
    exact ⟨history.lastWins, history.lastWins.get?_eq⟩
  · intro table token value hmem
    exact tokens_insert_of_mem hmem value
  · intro table
    exact ⟨overlay_empty table, empty_overlay table⟩

/-- Three tables of which each has a token of the one below, at another place. -/
theorem overlay_monoid_overlapping :
    let a := (empty.insert ":x".toList ['1']).insert ":y".toList ['2']
    let b := (empty.insert ":z".toList ['3']).insert ":x".toList ['4']
    let c := (empty.insert ":w".toList ['5']).insert ":z".toList ['6']
    ":x".toList ∈ a.tokens ∧ (a.insert ":x".toList ['7']).tokens = a.tokens ∧
      (a.overlay (b.overlay c)).entries =
        [(":x".toList, ['4']), (":y".toList, ['2']), (":z".toList, ['6']), (":w".toList, ['5'])] := by
  intro a b c
  obtain ⟨-, hinsert, -, hassoc, -⟩ := overlay_monoid
  have hmem : ":x".toList ∈ a.tokens := by decide
  refine ⟨hmem, hinsert a ":x".toList ['7'] hmem, ?_⟩
  rw [← hassoc]
  decide

end PlainRequest.Table
