/-
# PlainRequest.Proofs.Variable.Resolution — which variables a block can use

A document declares variables for all of its blocks, and a block declares some for itself. The tokens of
the two scopes begin with different markers, so neither takes a token of the other: the table of a block
lists what the document declares and behind it what the block declares, each token at the place of its
first declaration and with the value of its last. A declaration that stands where its scope does not
reach, in the document for a block or in the block for the document, is as if it were not there.
-/

import PlainRequest.Proofs.Document.NormalForm
import PlainRequest.Proofs.Variable.Declaration

namespace PlainRequest

open Text

namespace Declaration

/-- **`declared scope lines`** — the tokens that lines declare in a scope and their values, line by
line. -/
def declared (scope : Scope) (lines : List Text) : List (Text × Text) :=
  (collect scope lines).map fun declaration => (declaration.token, declaration.value)

/-- **`Marked marker token`** — the token is the marker and at least one more character, and holds neither
white space nor an `=`. -/
def Marked (marker : Char) (token : Text) : Prop :=
  ∃ name, token = marker :: name ∧ name ≠ [] ∧ ∀ c ∈ token, isSpace c = false ∧ c ≠ '='

theorem IsToken.marked {scope : Scope} {token : Text} (h : IsToken scope token) :
    Marked scope.marker token := by
  obtain ⟨name, rfl, hne, hchars⟩ := h
  refine ⟨name, rfl, hne, ?_⟩
  intro c hc
  rcases List.mem_cons.mp hc with rfl | hname
  · cases scope <;> decide
  · have hchar := hchars c hname
    simp only [isNameChar, Bool.and_eq_true, Bool.not_eq_true', decide_eq_true_eq] at hchar
    exact ⟨hchar.1.2, hchar.2⟩

/-- Different markers make different tokens. -/
theorem Marked.ne {marker other : Char} (hne : marker ≠ other) {token token' : Text}
    (h : Marked marker token) (h' : Marked other token') : token ≠ token' := by
  obtain ⟨name, rfl, -⟩ := h
  obtain ⟨name', rfl, -⟩ := h'
  intro hsame
  exact hne (List.cons.inj hsame).1

/-- A declaration of one scope declares nothing in another. -/
theorem ofLine?_eq_none_of_isDeclaration {scope other : Scope} (hne : scope ≠ other) {line : Text}
    (h : isDeclaration scope line = true) : ofLine? other line = none := by
  obtain ⟨declaration, hread⟩ := Option.isSome_iff_exists.mp h
  exact ofLine?_eq_none_of_ne hne hread

end Declaration

namespace Table

open Declaration Keyed

/-- **One scope**: first places, last values, and tokens of the scope only. -/
theorem lastWins_ofDeclarations (scope : Scope) (lines : List Text) :
    LastWins (declared scope lines) (ofDeclarations (collect scope lines)).entries :=
  lastWins_putAll (declared scope lines)

theorem marked_of_mem_ofDeclarations {scope : Scope} {lines : List Text} {token : Text}
    (h : token ∈ (ofDeclarations (collect scope lines)).entries.map Prod.fst) :
    Marked scope.marker token := by
  obtain ⟨entry, hentry, rfl⟩ := List.mem_map.mp h
  obtain ⟨declaration, hdeclaration, rfl⟩ := of_mem_ofDeclarations hentry
  obtain ⟨line, -, hread⟩ := List.mem_filterMap.mp hdeclaration
  exact (isToken_of_ofLine? hread).2.marked

/-- No token is of both scopes. -/
theorem ne_of_mem_ofDeclarations {document block : List Text} {shared own : Text}
    (hshared : shared ∈ (ofDeclarations (collect .document document)).entries.map Prod.fst)
    (hown : own ∈ (ofDeclarations (collect .block block)).entries.map Prod.fst) : shared ≠ own := by
  have hmarkers : Scope.document.marker ≠ Scope.block.marker := marker_ne (by decide)
  apply Marked.ne hmarkers
  · exact marked_of_mem_ofDeclarations hshared
  · exact marked_of_mem_ofDeclarations hown

/-- **Two scopes**: what the block declares goes behind what the document declares. -/
theorem entries_resolve (document block : List Text) :
    (resolve document block).entries =
      (ofDeclarations (collect .document document)).entries ++
        (ofDeclarations (collect .block block)).entries := by
  apply putAll_of_nodup
  rw [List.map_append, List.nodup_append]
  refine ⟨Table.distinct _, Table.distinct _, ?_⟩
  intro shared hshared own hown
  exact ne_of_mem_ofDeclarations hshared hown

/-- The block has no say in the value of a token that the document declares. -/
theorem get?_resolve_of_mem {document : List Text} {token : Text}
    (h : token ∈ (ofDeclarations (collect .document document)).entries.map Prod.fst)
    (block : List Text) :
    (resolve document block).get? token =
      (ofDeclarations (collect .document document)).get? token := by
  have hnone : last? token (ofDeclarations (collect .block block)).entries = none := by
    rw [last?_eq_none_iff]
    intro hown
    exact ne_of_mem_ofDeclarations h hown rfl
  show Keyed.get? token (putAll _ _) = Keyed.get? token _
  rw [get?_putAll, hnone, Option.none_or]

/-- Lines that declare nothing in the scope that is read may be put in. -/
theorem resolve_of_padded {document block document' block' : List Text}
    (hdocument : Padded (isDeclaration .block ·) document document')
    (hblock : Padded (isDeclaration .document ·) block block') :
    resolve document' block' = resolve document block := by
  have hshared : collect .document document' = collect .document document :=
    hdocument.filterMap_eq fun _ hline => ofLine?_eq_none_of_isDeclaration (by decide) hline
  have hown : collect .block block' = collect .block block :=
    hblock.filterMap_eq fun _ hline => ofLine?_eq_none_of_isDeclaration (by decide) hline
  rw [resolve, resolve, hshared, hown]

/-- **The table of a block is what the declarations say.** Its entries are those of the document and
behind them those of the block. In each of the two parts stand the tokens that are declared in its scope,
each once and in the order of their first declarations, with the values of their last. All tokens are
different; those of the document are marked by `$` and those of the block by `:`. So no block changes the
value that the document gives to a token, and declarations for a block in the document and for the
document in a block change nothing. -/
theorem resolve_exact (document block : List Text) :
    ∃ shared own : List (Text × Text),
      (resolve document block).entries = shared ++ own ∧
      LastWins (declared .document document) shared ∧ LastWins (declared .block block) own ∧
      ((shared ++ own).map Prod.fst).Nodup ∧
      (∀ token ∈ shared.map Prod.fst, Marked '$' token) ∧
      (∀ token ∈ own.map Prod.fst, Marked ':' token) ∧
      (∀ token ∈ shared.map Prod.fst, ∀ block',
        (resolve document block').get? token = Keyed.get? token shared) ∧
      ∀ document' block', Padded (isDeclaration .block ·) document document' →
        Padded (isDeclaration .document ·) block block' →
        resolve document' block' = resolve document block := by
  refine ⟨_, _, entries_resolve document block, lastWins_ofDeclarations .document document,
    lastWins_ofDeclarations .block block, ?_, ?_, ?_, ?_, ?_⟩
  · rw [← entries_resolve]
    exact Table.distinct _
  · intro token hmem
    exact marked_of_mem_ofDeclarations hmem
  · intro token hmem
    exact marked_of_mem_ofDeclarations hmem
  · intro token hmem block'
    exact get?_resolve_of_mem hmem block'
  · intro document' block' hdocument hblock
    exact resolve_of_padded hdocument hblock

/-- Two declarations of a token with another in between, in either scope, and one in each place where its
scope does not reach. -/
theorem resolve_exact_redeclared :
    let document := ["# $h = a".toList, "# $g = 1".toList, "# $h = c".toList]
    let block := ["# :p = 1".toList, "#:q=3".toList, "# :p = 4".toList]
    let document' := ["# $h = a".toList, "# :p = b".toList, "# $g = 1".toList, "# $h = c".toList]
    let block' := ["# :p = 1".toList, "#:q=3".toList, "# :p = 4".toList, "# $h = 2".toList]
    Padded (isDeclaration .block ·) document document' ∧
      Padded (isDeclaration .document ·) block block' ∧
      (resolve document' block').entries =
        [("$h".toList, ['c']), ("$g".toList, ['1']), (":p".toList, ['4']), (":q".toList, ['3'])] := by
  intro document block document' block'
  have hdocument : Padded (isDeclaration .block ·) document document' :=
    .kept (.added (by decide +kernel) (.kept (.kept .nil)))
  have hblock : Padded (isDeclaration .document ·) block block' :=
    .kept (.kept (.kept (.added (by decide +kernel) .nil)))
  obtain ⟨_, _, -, -, -, -, -, -, -, hpadded⟩ := resolve_exact document block
  refine ⟨hdocument, hblock, ?_⟩
  rw [hpadded document' block' hdocument hblock]
  decide +kernel

end Table

end PlainRequest
