/-
# PlainRequest.Proofs.Request.Shape — variables fill a request, they do not shape it

Reading a block with a table of variables is the same as reading it with none and then replacing the
variables in the parts of the request that may hold them: the URL, the header values and the body
lines. What each line is, which header it sets and where the body begins are therefore decided on the
lines as they are written. Two tables can only give two requests of one shape, whatever line ends,
colons, comment marks or method names their values hold.
-/

import PlainRequest.Proofs.Keyed
import PlainRequest.Request.Head

namespace PlainRequest.Head

/-- **`fill table head`** — the request with the variables of the table replaced in every part that may
hold them. -/
def fill (table : Table) (head : Head) : Head :=
  { method := head.method
    url := table.substitute head.url
    headers := Keyed.mapValues table.substitute head.headers
    bodyLines := head.bodyLines.map table.substitute }

/-- Without variables, header values stay as they are. -/
theorem mapValues_substitute_empty (headers : List (Text × Text)) :
    Keyed.mapValues Table.empty.substitute headers = headers := by
  refine (List.map_congr_left ?_).trans (List.map_id _)
  rintro ⟨name, value⟩ -
  show (name, Table.empty.substitute value) = (name, value)
  rw [Table.substitute_empty]

/-- Header lines that set headers with replaced values set the headers and have them replaced: which
line sets which header depends on the names, and names are not replaced. -/
theorem putAll_substitute (table : Table) (headers : List (Text × Text)) :
    Keyed.putAll (headers.map fun (name, value) => (name, table.substitute value)) [] =
      Keyed.mapValues table.substitute
        (Keyed.putAll (headers.map fun (name, value) => (name, Table.empty.substitute value)) []) := by
  have hempty : (headers.map fun (name, value) => (name, Table.empty.substitute value)) = headers :=
    mapValues_substitute_empty headers
  rw [hempty]
  exact Keyed.putAll_mapValues table.substitute headers []

/-- **Reading first, replacing afterwards.** A block is read with variables as it is read without, and
fails as it fails without; then the variables are replaced in the parts of the request. -/
theorem ofBlock_eq_fill (table : Table) (block : List Text) :
    ofBlock table block = (ofBlock Table.empty block).map (fill table) := by
  unfold ofBlock
  cases Line.significant block with
  | nil => rfl
  | cons first rest =>
      dsimp only
      cases Line.request? first with
      | none => rfl
      | some request =>
          obtain ⟨method, target⟩ := request
          show Except.ok _ = Except.ok _
          rw [Except.ok.injEq, fill, Head.mk.injEq]
          refine ⟨rfl, ?_, ?_, ?_⟩
          · rw [Table.substitute_empty]
          · exact putAll_substitute table (splitHeaders rest).1
          · have hempty : Table.empty.substitute = id := funext Table.substitute_empty
            rw [hempty, List.map_id]

/-! ## Two tables -/

/-- **`SameShape a b`** — two requests that can differ in texts only: in the URL, in the values of the
headers and in the body lines, line by line. -/
structure SameShape (a b : Head) : Prop where
  method : a.method = b.method
  names : a.headers.map Prod.fst = b.headers.map Prod.fst
  lineCount : a.bodyLines.length = b.bodyLines.length

theorem sameShape_fill (first second : Table) (head : Head) :
    SameShape (fill first head) (fill second head) := by
  refine ⟨rfl, ?_, ?_⟩
  · show (Keyed.mapValues _ _).map Prod.fst = (Keyed.mapValues _ _).map Prod.fst
    rw [Keyed.keys_mapValues, Keyed.keys_mapValues]
  · show (List.map _ _).length = (List.map _ _).length
    rw [List.length_map, List.length_map]

/-- **The values of variables cannot change the structure of a request.** With any two tables a block
either fails with the same error, or is read as two requests with the same method, the same header
names in the same order and the same number of body lines. -/
theorem ofBlock_sameShape (first second : Table) (block : List Text) :
    (∃ failure, ofBlock first block = .error failure ∧ ofBlock second block = .error failure) ∨
      ∃ a b, ofBlock first block = .ok a ∧ ofBlock second block = .ok b ∧ SameShape a b := by
  rw [ofBlock_eq_fill first, ofBlock_eq_fill second]
  cases ofBlock Table.empty block with
  | error failure => exact .inl ⟨failure, rfl, rfl⟩
  | ok head =>
      have hshape := sameShape_fill first second head
      exact .inr ⟨fill first head, fill second head, rfl, rfl, hshape⟩

-- a value that looks like a line end and a header line stays one value
example :
    ofBlock (Table.ofList [(['v'], "1\nB: 2".toList)]) ["GET h".toList, "A: v".toList, "v".toList] =
      .ok { method := .get, url := ['h'], headers := [(['A'], "1\nB: 2".toList)]
            bodyLines := ["1\nB: 2".toList] } := by
  decide +kernel

end PlainRequest.Head
