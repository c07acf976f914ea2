/-
# PlainRequest.Proofs.Curl.RoundTrip — a block, its command, and the block that it is read back as

The rebuilt block has no mark between its headers and its body. For data that are a JSON array or
object none is needed: the first line that they are laid out on is brackets, no line of them is a
comment or blank, and what they spell is laid out in the same way again. Other data stand on one line,
and if that line reads as a header then it is read as one: this is the only way in which the rebuilt
block can have other headers.
-/

import PlainRequest.Proofs.Curl.ReadBack
import PlainRequest.Proofs.Json.Layout
import PlainRequest.Proofs.Request.Fields

namespace PlainRequest.Curl

open Text Line

/-! ## The lines of the data -/

/-- **Flattening keeps the value**: body lines that are a JSON text are data with the same value. -/
theorem ofText?_dataOf {bodyLines : List Text} {value : Json}
    (h : Json.ofText? (joinWith ['\n'] bodyLines) = some value) :
    Json.ofText? (dataOf bodyLines) = some value := by
  obtain ⟨tokens, htokens, hread⟩ := Option.bind_eq_some_iff.mp h
  have hflat := Json.tokens?_flatten htokens
  rw [Json.ofText?, dataOf, hflat]
  exact hread

theorem dataLines_of_ofText? {data : Text} {value : Json} (h : Json.ofText? data = some value) :
    dataLines data = lines (Json.write dataStyle 0 value) := by
  have hne : data.isEmpty = false := by
    cases data with
    | nil =>
        rw [Json.ofText?_nil] at h
        simp at h
    | cons c rest => rfl
  rw [dataLines, hne, Json.reformat?, h]
  rfl

theorem dataLines_of_none {data : Text} (h : Json.ofText? data = none) :
    dataLines data = [] ∨ dataLines data = [data] := by
  rw [dataLines, Json.reformat?, h]
  split
  · exact .inl rfl
  · exact .inr rfl

/-- A line of brackets is neither a header line nor a form line. -/
theorem of_brackets {line : Text} (hbrackets : line.all Json.isBracket = true) :
    header? line = none ∧ '=' ∉ line := by
  have h := List.all_eq_true.mp hbrackets
  refine ⟨?_, fun hmem => absurd (h _ hmem) (by decide)⟩
  have hsplit : splitFirst? ':' line = none :=
    splitFirst?_of_notMem fun hmem => absurd (h _ hmem) (by decide)
  rw [header?, hsplit]
  rfl

/-- The lines of JSON data are the pieces of what is written for the value, and all are indented. -/
theorem dataLines_eq_splitAll {data : Text} {value : Json} (h : Json.ofText? data = some value) :
    dataLines data = splitAll '\n' (Json.write dataStyle 0 value) ∧
      ∀ line ∈ dataLines data, Json.Indented line := by
  rw [dataLines_of_ofText? h]
  exact Json.lines_write dataStyle (Json.readable_of_ofText? h)

/-- **The lines of JSON data spell the value again**, if no object has the key that marks a number. -/
theorem ofText?_dataLines {data : Text} {value : Json} (h : Json.ofText? data = some value)
    (hkeys : Json.numberKey ∉ value.keys) :
    Json.ofText? (joinWith ['\n'] (dataLines data)) = some value := by
  rw [(dataLines_eq_splitAll h).1, joinWith_splitAll]
  exact Json.ofText?_write dataStyle (Json.readable_of_ofText? h) hkeys

/-- **What the lines of a container are**: all of them count, and the first is neither a header line
nor a form line. -/
structure IsContainer (laid : List Text) : Prop where
  kept : significant laid = laid
  opens : ∃ first others, laid = first :: others ∧ header? first = none ∧ '=' ∉ first

/-- An array or object is laid out on such lines. -/
theorem isContainer_dataLines {data : Text} {value : Json} (h : Json.ofText? data = some value)
    (hcontainer : value.isContainer = true) : IsContainer (dataLines data) := by
  obtain ⟨hlines, hindented⟩ := dataLines_eq_splitAll h
  obtain ⟨first, others, hsplit, hbrackets⟩ :=
    Json.splitAll_write_container dataStyle 0 hcontainer
  refine ⟨Json.significant_of_indented hindented, first, others, ?_, of_brackets hbrackets⟩
  rw [hlines, hsplit]

theorem IsContainer.splitHeaders {laid : List Text} (h : IsContainer laid) :
    Head.splitHeaders (significant laid) = ([], laid) := by
  obtain ⟨first, others, hlines, hheader, -⟩ := h.opens
  rw [h.kept, hlines, Head.splitHeaders, hheader]

/-- One line that is no form line makes all of them raw text. -/
theorem IsContainer.ofLines {laid : List Text} (h : IsContainer laid) :
    Body.ofLines laid = .raw (joinWith ['\n'] laid) := by
  obtain ⟨first, others, hlines, -, hform⟩ := h.opens
  have hmem : first ∈ laid := by simp [hlines]
  exact Body.ofLines_of_notMem ⟨first, hmem, hform⟩

/-! ## Reading the rebuilt block -/

/-- The request that the rebuilt block describes, before its body is classified. -/
def reread (head : Head) : Head :=
  { method := head.method
    url := head.url
    headers := Keyed.putAll
      (Head.splitHeaders (significant (dataLines (dataOf head.bodyLines)))).1 head.headers
    bodyLines := (Head.splitHeaders (significant (dataLines (dataOf head.bodyLines)))).2 }

/-- **The rebuilt block is read as the request line and the headers that it was built from**, and as
what the data lines give. -/
theorem ofBlock_rebuilt {table : Table} {block : List Text} {head : Head}
    (hhead : Head.ofBlock table block = .ok head)
    (hspaces : ∀ header ∈ head.headers, ∀ c ∈ header.2.head?, isSpace c = false) :
    Head.ofBlock Table.empty (rebuilt head) = .ok (reread head) := by
  have hnames := Head.wellNamed_of_ofBlock hhead
  have hread := ofBlock_frontLines head.method hnames (Table.substitute_empty head.url)
    (fun header _ => Table.substitute_empty header.2) hspaces (dataLines (dataOf head.bodyLines))
  have hempty : Table.empty.substitute = id := funext Table.substitute_empty
  rw [rebuilt, hread, hempty, List.map_id]
  simp [reread]

/-- If the data lines are all body, they are the one thing in which the request has changed. -/
theorem reread_of_kept {head : Head}
    (h : Head.splitHeaders (significant (dataLines (dataOf head.bodyLines))) =
      ([], dataLines (dataOf head.bodyLines))) :
    reread head = { head with bodyLines := dataLines (dataOf head.bodyLines) } := by
  rw [reread, h]
  rfl

/-- And if as body lines they are data for the same lines, then the rebuilt block has a command again,
and is rebuilt from it. -/
theorem toLines_again {table : Table} {block : List Text} {command : Text} {head : Head}
    (h : ofBlock table block = .ok command) (hhead : Head.ofBlock table block = .ok head)
    (hurl : head.url.head? ≠ some '-')
    (hreread : Head.ofBlock Table.empty (rebuilt head) =
      .ok { head with bodyLines := dataLines (dataOf head.bodyLines) })
    (hdata : dataLines (dataOf (dataLines (dataOf head.bodyLines))) =
      dataLines (dataOf head.bodyLines)) :
    ∃ again, ofBlock Table.empty (rebuilt head) = .ok again ∧
      toLines again = .ok (rebuilt head) := by
  obtain ⟨head', hhead', hnul, -⟩ := words?_of_ofBlock h
  obtain rfl := Except.ok.inj (hhead.symm.trans hhead')
  obtain ⟨quotedUrl, -, hagain⟩ := ofBlock_of_quotable hreread hnul
  refine ⟨_, hagain, ?_⟩
  rw [toLines_of_plain hagain hreread (.inl hurl), rebuilt, hdata]
  rfl

/-- **A request without a body or with a JSON body goes through a command and back.** Its body lines
are either none or, joined, a JSON text whose value is an array or an object and has no object with
the key that marks a number. (Objects that only stand for a number are numbers in the value.) Then the
command is read back as a block for the same method, URL and headers, whose body is empty or raw JSON
text with the same value; and the command for that block is read back as the very same lines. -/
theorem roundTrip_ofBlock {table : Table} {block : List Text} {command : Text} {head : Head}
    (h : ofBlock table block = .ok command) (hhead : Head.ofBlock table block = .ok head)
    (hurl : head.url.head? ≠ some '-')
    (hspaces : ∀ header ∈ head.headers, ∀ c ∈ header.2.head?, isSpace c = false)
    (hbody : head.bodyLines = [] ∨
      ∃ value, Json.ofText? (joinWith ['\n'] head.bodyLines) = some value ∧
        value.isContainer = true ∧ Json.numberKey ∉ value.keys) :
    ∃ lines request,
      toLines command = .ok lines ∧ Request.ofBlock Table.empty lines = .ok request ∧
      request.method = head.method ∧ request.url = head.url ∧ request.headers = head.headers ∧
      (head.bodyLines = [] → request.body = .raw []) ∧
      (∀ value, Json.ofText? (joinWith ['\n'] head.bodyLines) = some value →
        ∃ text, request.body = .raw text ∧ Json.ofText? text = some value) ∧
      ∃ again, ofBlock Table.empty lines = .ok again ∧ toLines again = .ok lines := by
  have hlines := toLines_of_plain h hhead (.inl hurl)
  -- in both cases the data lines are all body, and are laid out in the same way again
  have hkept : Head.splitHeaders (significant (dataLines (dataOf head.bodyLines))) =
      ([], dataLines (dataOf head.bodyLines)) := by
    rcases hbody with hnone | ⟨value, hvalue, hcontainer, -⟩
    · rw [hnone]
      rfl
    · exact (isContainer_dataLines (ofText?_dataOf hvalue) hcontainer).splitHeaders
  have hdata : dataLines (dataOf (dataLines (dataOf head.bodyLines))) =
      dataLines (dataOf head.bodyLines) := by
    rcases hbody with hnone | ⟨value, hvalue, -, hkeys⟩
    · rw [hnone]
      rfl
    · have hspelled := ofText?_dataLines (ofText?_dataOf hvalue) hkeys
      rw [dataLines_of_ofText? (ofText?_dataOf hspelled),
        dataLines_of_ofText? (ofText?_dataOf hvalue)]
  have hreread := ofBlock_rebuilt hhead hspaces
  rw [reread_of_kept hkept] at hreread
  have hrequest : Request.ofBlock Table.empty (rebuilt head) =
      .ok { method := head.method, url := head.url, headers := head.headers
            body := Body.ofLines (dataLines (dataOf head.bodyLines)) } := by
    rw [Request.ofBlock_eq_map, hreread]
    rfl
  refine ⟨rebuilt head, _, hlines, hrequest, rfl, rfl, rfl, ?_, ?_,
    toLines_again h hhead hurl hreread hdata⟩
  · intro hnone
    rw [hnone]
    rfl
  · intro value hvalue
    rcases hbody with hnone | ⟨same, hsame, hcontainer, hkeys⟩
    · rw [hnone, joinWith, Json.ofText?_nil] at hvalue
      simp at hvalue
    · obtain rfl := Option.some.inj (hvalue.symm.trans hsame)
      have hflat := ofText?_dataOf hvalue
      exact ⟨_, (isContainer_dataLines hflat hcontainer).ofLines, ofText?_dataLines hflat hkeys⟩

/-- An array over two lines. -/
theorem roundTrip_ofBlock_array :
    ∃ command lines request,
      ofBlock Table.empty ["PUT http://h/p".toList, "X: 1".toList, "[1,".toList, "\"a: b\"]".toList] =
        .ok command ∧
      toLines command = .ok lines ∧ Request.ofBlock Table.empty lines = .ok request ∧
      request.headers = [(['X'], ['1'])] ∧
      (∃ text, request.body = .raw text ∧
        Json.ofText? text = some (.array [.number ['1'], .string "a: b".toList])) ∧
      ∃ again, ofBlock Table.empty lines = .ok again ∧ toLines again = .ok lines := by
  have hhead : Head.ofBlock Table.empty ["PUT http://h/p".toList, "X: 1".toList, "[1,".toList,
      "\"a: b\"]".toList] = .ok
        { method := .put, url := "http://h/p".toList, headers := [(['X'], ['1'])]
          bodyLines := ["[1,".toList, "\"a: b\"]".toList] } := by
    decide +kernel
  have hspaces : ∀ header ∈ [(['X'], ['1'])], ∀ c ∈ header.2.head?, isSpace c = false := by
    intro header hmem c hc
    obtain rfl := List.mem_singleton.mp hmem
    obtain rfl := Option.some.inj hc
    decide
  have hvalue : Json.ofText? (joinWith ['\n'] ["[1,".toList, "\"a: b\"]".toList]) =
      some (.array [.number ['1'], .string "a: b".toList]) := by
    cbv
  obtain ⟨quotedUrl, -, hcommand⟩ := ofBlock_of_quotable hhead (by decide)
  obtain ⟨lines, request, hlines, hrequest, -, -, hheaders, -, hbody, hagain⟩ :=
    roundTrip_ofBlock hcommand hhead (by decide) hspaces
      (.inr ⟨_, hvalue, rfl, by simp [Json.keys, Json.itemKeys]⟩)
  exact ⟨_, lines, request, hcommand, hlines, hrequest, hheaders, hbody _ hvalue, hagain⟩

/-! ## Data that read as a header -/

/-- **`strayHeader? data`** — the header that the first line of the data reads as, if it does and is
no comment. -/
def strayHeader? (data : Text) : Option (Text × Text) := do
  let line ← (dataLines data).head?
  if isComment line then none else header? line

/-- One line alone gives the header that it reads as, unless it is a comment. -/
theorem splitHeaders_singleton (line : Text) :
    (Head.splitHeaders (significant [line])).1 =
      (if isComment line then none else header? line).toList := by
  cases hcomment : isComment line with
  | true => simp [significant, hcomment, Head.splitHeaders]
  | false =>
      cases hheader : header? line with
      | some header =>
          have hblank := not_blank_of_header? hheader
          simp [significant, hcomment, hblank, Head.splitHeaders, hheader]
      | none =>
          cases hblank : isBlank line with
          | true => simp [significant, hcomment, hblank, Head.splitHeaders]
          | false => simp [significant, hcomment, hblank, Head.splitHeaders, hheader]

/-- **At most one header is read from the data lines**, and from the first of them. -/
theorem splitHeaders_dataLines (data : Text) :
    (Head.splitHeaders (significant (dataLines data))).1 = (strayHeader? data).toList := by
  have hsingle : ∀ line, dataLines data = [line] →
      (Head.splitHeaders (significant (dataLines data))).1 = (strayHeader? data).toList := by
    intro line hline
    rw [hline, splitHeaders_singleton, strayHeader?, hline]
    rfl
  cases hjson : Json.ofText? data with
  | none =>
      -- no JSON: the data are one line, or none
      rcases dataLines_of_none hjson with hnone | hone
      · rw [strayHeader?, hnone]
        rfl
      · exact hsingle data hone
  | some value =>
      cases hcontainer : value.isContainer with
      | false =>
          -- a string may read as a header, since its first character may be part of a name
          have hlines := (dataLines_eq_splitAll hjson).1
          rw [Json.splitAll_write_scalar dataStyle 0 (Json.readable_of_ofText? hjson) hcontainer]
            at hlines
          exact hsingle _ hlines
      | true =>
          -- brackets stand first, so no later line is reached
          have hlaid := isContainer_dataLines hjson hcontainer
          obtain ⟨first, others, hlines, hheader, -⟩ := hlaid.opens
          rw [hlaid.splitHeaders, strayHeader?, hlines]
          cases isComment first <;> simp [hheader]

/-- **When a command keeps the headers of a request.** The rebuilt block is always read as a request
with the same method and URL. It has the same headers if and only if the first line of the data does
not read as a header, or reads as one that the request has with the same value: a text such as
`note: x` that was body, because a line of another kind stood in front of it, is a header once the
lines are put together. -/
theorem headers_preserved_iff {table : Table} {block : List Text} {command : Text} {head : Head}
    (h : ofBlock table block = .ok command) (hhead : Head.ofBlock table block = .ok head)
    (hurl : head.url.head? ≠ some '-')
    (hspaces : ∀ header ∈ head.headers, ∀ c ∈ header.2.head?, isSpace c = false) :
    ∃ lines again,
      toLines command = .ok lines ∧ Head.ofBlock Table.empty lines = .ok again ∧
      again.method = head.method ∧ again.url = head.url ∧
      (again.headers = head.headers ↔
        ∀ name value, strayHeader? (dataOf head.bodyLines) = some (name, value) →
          Keyed.get? name head.headers = some value) := by
  refine ⟨rebuilt head, reread head, toLines_of_plain h hhead (.inl hurl),
    ofBlock_rebuilt hhead hspaces, rfl, rfl, ?_⟩
  rw [reread, splitHeaders_dataLines]
  cases hstray : strayHeader? (dataOf head.bodyLines) with
  | none =>
      refine ⟨fun _ name value hsome => by simp at hsome, fun _ => ?_⟩
      rfl
  | some header =>
      obtain ⟨name, value⟩ := header
      show Keyed.put name value head.headers = head.headers ↔ _
      rw [Keyed.put_eq_self_iff]
      constructor
      · intro hget name' value' hsome
        obtain ⟨rfl, rfl⟩ := Prod.mk.inj (Option.some.inj hsome)
        exact hget
      · intro hall
        exact hall name value rfl

/-- A text that is no header line leaves the headers as they are. -/
theorem headers_preserved_iff_plain :
    ∃ command lines again,
      ofBlock Table.empty ["POST http://h/p".toList, "X: 1".toList, "hello".toList] =
        .ok command ∧
      toLines command = .ok lines ∧ Head.ofBlock Table.empty lines = .ok again ∧
      again.headers = [(['X'], ['1'])] := by
  have hhead : Head.ofBlock Table.empty ["POST http://h/p".toList, "X: 1".toList, "hello".toList] =
      .ok { method := .post, url := "http://h/p".toList, headers := [(['X'], ['1'])]
            bodyLines := ["hello".toList] } := by
    decide +kernel
  have hspaces : ∀ header ∈ [(['X'], ['1'])], ∀ c ∈ header.2.head?, isSpace c = false := by
    intro header hmem c hc
    obtain rfl := List.mem_singleton.mp hmem
    obtain rfl := Option.some.inj hc
    decide
  have hstray : strayHeader? (dataOf ["hello".toList]) = none := by
    decide +kernel
  obtain ⟨quotedUrl, -, hcommand⟩ := ofBlock_of_quotable hhead (by decide)
  obtain ⟨lines, again, hlines, hagain, -, -, hheaders⟩ :=
    headers_preserved_iff hcommand hhead (by decide) hspaces
  refine ⟨_, lines, again, hcommand, hlines, hagain, hheaders.mpr ?_⟩
  intro name value hsome
  rw [hstray] at hsome
  simp at hsome

/-- **A body of two lines that becomes a header**: `hello` and `note: x` are put together to
`hello note: x`. -/
theorem headers_not_preserved :
    ∃ block command head lines again,
      ofBlock Table.empty block = .ok command ∧ Head.ofBlock Table.empty block = .ok head ∧
      head.url.head? ≠ some '-' ∧
      (∀ header ∈ head.headers, ∀ c ∈ header.2.head?, isSpace c = false) ∧
      toLines command = .ok lines ∧ Head.ofBlock Table.empty lines = .ok again ∧
      again.headers ≠ head.headers := by
  refine ⟨["POST http://h/p".toList, "hello".toList, "note: x".toList],
    "curl -X POST -v -d \"hello note: x\" http://h/p".toList,
    { method := .post, url := "http://h/p".toList, headers := []
      bodyLines := ["hello".toList, "note: x".toList] },
    ["POST http://h/p".toList, "hello note: x".toList],
    { method := .post, url := "http://h/p".toList
      headers := [("hello note".toList, ['x'])], bodyLines := [] }, ?_, ?_, ?_, ?_, ?_, ?_, ?_⟩
  · decide +kernel
  · decide +kernel
  · decide
  · intro header hmem
    simp at hmem
  · decide +kernel
  · decide +kernel
  · decide

end PlainRequest.Curl
