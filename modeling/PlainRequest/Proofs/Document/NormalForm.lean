/-
# PlainRequest.Proofs.Document.NormalForm — what of a block counts

The lines of a block are read twice, for the variables that they declare and for the request that they
describe. No line takes part in both readings: a declaration is a comment, and the request is read from
the lines that are no comments. So the declarations of a block may stand anywhere in it, in front of
all other lines for instance, which is the normal form of a block; and a line that neither declares nor
counts may be put in or left out. Nothing that is done with the block can tell the difference, whatever
the files and the transport are.
-/

import PlainRequest.Proofs.Execution
import PlainRequest.Proofs.Line

namespace PlainRequest

open Text Line Declaration

/-! ## The two readings -/

namespace Declaration

/-- A declaration is a comment. -/
theorem isComment_of_ofLine? {scope : Scope} {line : Text} {declaration : Declaration}
    (h : ofLine? scope line = some declaration) : isComment line = true := by
  obtain ⟨afterHash, hhash, -⟩ := Option.bind_eq_some_iff.mp h
  rw [stripPrefix?_eq_some_iff.mp hhash]
  rfl

/-- So a line that is none declares nothing. -/
theorem ofLine?_of_not_comment {line : Text} (h : isComment line = false) (scope : Scope) :
    ofLine? scope line = none := by
  cases hread : ofLine? scope line with
  | none => rfl
  | some declaration =>
      rw [isComment_of_ofLine? hread] at h
      cases h

/-- Does the line declare a variable of the scope? -/
def isDeclaration (scope : Scope) (line : Text) : Bool := (ofLine? scope line).isSome

theorem collect_append (scope : Scope) (lines more : List Text) :
    collect scope (lines ++ more) = collect scope lines ++ collect scope more :=
  List.filterMap_append

/-- **Lines that count declare nothing.** -/
theorem collect_significant (scope : Scope) (lines : List Text) :
    collect scope (significant lines) = [] := by
  rw [collect, List.filterMap_eq_nil_iff]
  intro line hline
  exact ofLine?_of_not_comment (mem_significant.mp hline).2.1 scope

/-- What lines declare is declared by the declarations among them. -/
theorem collect_filter_isDeclaration (scope : Scope) (lines : List Text) :
    collect scope (lines.filter (isDeclaration scope)) = collect scope lines := by
  rw [collect, collect, List.filterMap_filter]
  refine congrArg (List.filterMap · lines) (funext fun line => ?_)
  cases hread : ofLine? scope line with
  | none => simp
  | some declaration => simp [isDeclaration, hread]

/-- **Declarations do not count** for the request. -/
theorem significant_filter_isDeclaration (scope : Scope) (lines : List Text) :
    significant (lines.filter (isDeclaration scope)) = [] := by
  rw [significant, List.filter_eq_nil_iff]
  intro line hline
  obtain ⟨declaration, hread⟩ := Option.isSome_iff_exists.mp (List.mem_filter.mp hline).2
  simp [isComment_of_ofLine? hread]

end Declaration

/-- **`normalForm block`** — the declarations of the block, and then the lines of its request. -/
def normalForm (block : List Text) : List Text :=
  block.filter (isDeclaration .block) ++ significant block

theorem collect_normalForm (block : List Text) :
    collect .block (normalForm block) = collect .block block := by
  rw [normalForm, collect_append, collect_filter_isDeclaration, collect_significant,
    List.append_nil]

theorem significant_normalForm (block : List Text) :
    significant (normalForm block) = significant block := by
  rw [normalForm, significant_append, significant_filter_isDeclaration, significant_significant,
    List.nil_append]

/-! ## Lines put in -/

/-- **`Padded Idle lines more`** — `more` is `lines` with idle lines put in, at any places and in any
number. -/
inductive Padded (Idle : Text → Prop) : List Text → List Text → Prop
  | nil : Padded Idle [] []
  | kept {line : Text} {lines more : List Text} (h : Padded Idle lines more) :
      Padded Idle (line :: lines) (line :: more)
  | added {line : Text} {lines more : List Text} (hidle : Idle line) (h : Padded Idle lines more) :
      Padded Idle lines (line :: more)

/-- A reading of lines one by one that takes nothing from idle lines takes the same from padded lines. -/
theorem Padded.filterMap_eq {α : Type} {read : Text → Option α} {Idle : Text → Prop}
    (hidle : ∀ line, Idle line → read line = none) {lines more : List Text}
    (h : Padded Idle lines more) : more.filterMap read = lines.filterMap read := by
  induction h with
  | nil => rfl
  | @kept line lines more _ ih => rw [List.filterMap_cons, List.filterMap_cons, ih]
  | added hline _ ih => rw [List.filterMap_cons_none (hidle _ hline), ih]

/-- **`IdleInDocument line`** — a line that declares nothing for the document. -/
def IdleInDocument (line : Text) : Prop := ofLine? .document line = none

/-- **`IdleInBlock line`** — a blank line, or a comment that declares nothing for the block. -/
def IdleInBlock (line : Text) : Prop :=
  isBlank line = true ∨ isComment line = true ∧ ofLine? .block line = none

theorem not_comment_of_blank {line : Text} (h : isBlank line = true) : isComment line = false := by
  rw [isComment, decide_eq_false_iff_not]
  intro hhead
  have hmark : isBlank line = false :=
    not_blank_of_mem (List.mem_of_mem_head? hhead) (by decide)
  rw [hmark] at h
  cases h

theorem IdleInBlock.ofLine?_eq_none {line : Text} (h : IdleInBlock line) :
    ofLine? .block line = none := by
  rcases h with hblank | ⟨-, hnone⟩
  · exact ofLine?_of_not_comment (not_comment_of_blank hblank) .block
  · exact hnone

theorem Padded.significant_eq {block more : List Text} (h : Padded IdleInBlock block more) :
    significant more = significant block := by
  rw [significant, significant, ← List.filterMap_eq_filter]
  refine h.filterMap_eq ?_
  rintro line (hblank | ⟨hcomment, -⟩)
  · simp [Option.guard, hblank]
  · simp [Option.guard, hcomment]

/-! ## What is done with a block -/

/-- **`ActsAlike document block document' block'`** — a block of a document, and another block of
another document, with which nothing different can be done: they have one curl command or fail to have
one for the same reason, and sending them is the same computation over all files and transports. In
particular the same files are read and the same request is sent. -/
structure ActsAlike (document block document' block' : List Text) : Prop where
  command : curlCommand document block = curlCommand document' block'
  execution : ∀ {m : Type → Type} [Monad m] (files : Files m) (transport : Transport m)
    (settings : JsonSettings),
    execute files transport settings document block =
      execute files transport settings document' block'
  events : ∀ (disk : Files Id) (answer : Prepared → Except Failure Response)
    (settings : JsonSettings),
    sending disk answer settings document block = sending disk answer settings document' block'

/-- A request is read from the lines that count. -/
theorem Head.ofBlock_congr {block block' : List Text} (h : significant block = significant block')
    (table : Table) : Head.ofBlock table block = Head.ofBlock table block' := by
  unfold Head.ofBlock
  rw [h]

/-- **What is declared and what counts** is all that matters. -/
theorem ActsAlike.of_readings {document block document' block' : List Text}
    (hdocument : collect .document document = collect .document document')
    (hblock : collect .block block = collect .block block')
    (hlines : significant block = significant block') :
    ActsAlike document block document' block' := by
  have htable : Table.resolve document block = Table.resolve document' block' := by
    rw [Table.resolve, Table.resolve, hdocument, hblock]
  have hhead := Head.ofBlock_congr hlines (Table.resolve document' block')
  have hexecution : ∀ {m : Type → Type} [Monad m] (files : Files m) (transport : Transport m)
      (settings : JsonSettings), execute files transport settings document block =
        execute files transport settings document' block' := by
    intro m _ files transport settings
    unfold execute Prepared.ofBlock Request.ofBlock
    rw [htable, hhead]
  refine ⟨?_, hexecution, ?_⟩
  · unfold curlCommand Curl.ofBlock
    rw [htable, hhead]
  · intro disk answer settings
    unfold sending
    rw [hexecution]

/-- **Comments, blank lines and the places of declarations do not matter.** A block acts like its normal
form, where the declarations stand in front of the request. And it acts like every block that has more
blank lines and more comments which declare nothing for a block, in a document that has more lines which
declare nothing for a document. -/
theorem actsAlike_normalForm (document block : List Text) :
    ActsAlike document block document (normalForm block) ∧
    ∀ document' block', Padded IdleInDocument document document' →
      Padded IdleInBlock block block' → ActsAlike document block document' block' := by
  constructor
  · exact .of_readings rfl (collect_normalForm block).symm (significant_normalForm block).symm
  · intro document' block' hdocument hblock
    have hshared : collect .document document' = collect .document document :=
      hdocument.filterMap_eq fun _ hline => hline
    have hown : collect .block block' = collect .block block :=
      hblock.filterMap_eq fun _ hline => hline.ofLine?_eq_none
    exact .of_readings hshared.symm hown.symm hblock.significant_eq.symm

/-- A comment that is nearly a declaration, a declaration of the other scope, a line of white space and a
variable that is declared behind its use. -/
theorem actsAlike_normalForm_scattered :
    let document := ["# $h = a".toList]
    let block := ["POST http://$h/:p".toList, "# :p = 1".toList, "x".toList]
    let document' := ["# :h = b".toList, "# $h = a".toList, "$h = c".toList]
    let block' := ["#  :p = 2".toList, "POST http://$h/:p".toList, "\t\u3000".toList,
      "# :p = 1".toList, "# $p = 3".toList, "x".toList]
    Padded IdleInDocument document document' ∧ Padded IdleInBlock block block' ∧
      (curlCommand document' block').toOption = some "curl -X POST -v -d \"x\" http://a/1".toList ∧
      curlCommand document' (normalForm block') = curlCommand document block := by
  intro document block document' block'
  have hdocument : Padded IdleInDocument document document' :=
    .added rfl (.kept (.added rfl .nil))
  have hblock : Padded IdleInBlock block block' :=
    .added (.inr ⟨rfl, by decide +kernel⟩) (.kept (.added (.inl (by decide +kernel))
      (.kept (.added (.inr ⟨rfl, by decide +kernel⟩) (.kept .nil)))))
  have hsame := ((actsAlike_normalForm document block).2 document' block' hdocument hblock).command
  have hnormal := (actsAlike_normalForm document' block').1.command
  refine ⟨hdocument, hblock, ?_, hnormal.symm.trans hsame.symm⟩
  rw [← hsame]
  decide +kernel

end PlainRequest
