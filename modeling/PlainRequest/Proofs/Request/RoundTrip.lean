/-
# PlainRequest.Proofs.Request.RoundTrip — a request that is written is read back

The written form has no mark between headers and body, no mark for a form, and no way to keep a token
from being replaced. `Request.Writable` and `Table.Avoids` are the conditions under which none is
missed: the line behind the headers is no header line, every body line counts, the body lines tell what
the body is, and no token occurs where tokens are replaced. Then reading undoes writing.
-/

import PlainRequest.Proofs.Request.Fields
import PlainRequest.Proofs.Request.Grammar
import PlainRequest.Proofs.Request.Reading
import PlainRequest.Proofs.Variable.Substitution

namespace PlainRequest

open Text Line

/-- **`request.Writable`** — the request can be written as the lines of a block. Its header names are
distinct, can stand before a colon and open no comment; its header values do not begin with white
space, which would be lost; its body can be written; and of the body lines none is a comment or blank,
and the first is no header line. -/
structure Request.Writable (request : Request) : Prop where
  names : WellNamed request.headers
  values : ∀ header ∈ request.headers, ∀ c ∈ header.2.head?, isSpace c = false
  body : request.body.Writable
  counted : ∀ line ∈ request.body.toLines, isComment line = false ∧ isBlank line = false
  boundary : ∀ line ∈ request.body.toLines.head?, Line.header? line = none

/-- The lines of a request are its front lines and those of its body. -/
theorem Request.toLines_eq (request : Request) :
    request.toLines =
      frontLines request.method request.url request.headers ++ request.body.toLines := rfl

/-- Where no token occurs, every line stays as it is. -/
theorem Table.map_substitute_eq_self {table : Table} {lines : List Text}
    (h : ∀ line ∈ lines, table.Avoids line) : lines.map table.substitute = lines := by
  refine (List.map_congr_left ?_).trans (List.map_id _)
  intro line hline
  exact (h line hline).substitute_eq_self

/-- The head of a request that is written: its body lines are all read as body. -/
theorem Head.ofBlock_of_writable {table : Table} {request : Request} (h : request.Writable)
    (hurl : table.Avoids request.url) (hvalues : ∀ header ∈ request.headers, table.Avoids header.2)
    (hlines : ∀ line ∈ request.body.toLines, table.Avoids line) :
    Head.ofBlock table request.toLines =
      .ok { method := request.method
            url := request.url
            headers := request.headers
            bodyLines := request.body.toLines } := by
  have hsplit : splitHeaders (significant request.body.toLines) = ([], request.body.toLines) := by
    rw [significant_eq_self h.counted]
    show splitHeaders ([] ++ request.body.toLines) = _
    exact splitHeaders_of_run (by simp) h.boundary
  have hread := ofBlock_frontLines request.method h.names hurl.substitute_eq_self
    (fun header hmem => (hvalues header hmem).substitute_eq_self) h.values request.body.toLines
  rw [request.toLines_eq, hread, hsplit, Table.map_substitute_eq_self hlines]
  rfl

/-- **Reading undoes writing.** A request that can be written is read back from its lines, unchanged,
with every table none of whose tokens occurs in the URL, in a header value or in a body line. -/
theorem Request.ofBlock_toLines {table : Table} {request : Request} (h : request.Writable)
    (hurl : table.Avoids request.url) (hvalues : ∀ header ∈ request.headers, table.Avoids header.2)
    (hlines : ∀ line ∈ request.body.toLines, table.Avoids line) :
    Request.ofBlock table request.toLines = .ok request := by
  rw [Request.ofBlock_eq_map, Head.ofBlock_of_writable h hurl hvalues hlines]
  show Except.ok { method := request.method, url := request.url, headers := request.headers,
                   body := Body.ofLines request.body.toLines } = Except.ok request
  rw [Body.ofLines_toLines h.body]

/-- A form with an empty name, a path with parentheses and a backslash, and content that looks like a
directive itself, read with a token that occurs only in a header name, and with the empty token. -/
theorem Request.ofBlock_toLines_form :
    ∃ table request,
      table.get? [] = some ['v'] ∧ table.get? ['X'] = some ":".toList ∧
      request.headers = [("X Y".toList, "a: b".toList), (['Z'], [])] ∧
      request.body = .form [([], .literal "a=b".toList), (['f'], .file "a (1)\\".toList),
        (['c'], .content "!file(x)".toList)] ∧
      request.toLines = ["PUT http://h/p q".toList, "X Y: a: b".toList, "Z: ".toList, "=a=b".toList,
        "f=!file(a \\(1\\)\\)".toList, "c=!content(!file\\(x\\))".toList] ∧
      Request.ofBlock table request.toLines = .ok request := by
  refine ⟨Table.ofList [([], ['v']), (['X'], ":".toList)],
    { method := .put, url := "http://h/p q".toList
      headers := [("X Y".toList, "a: b".toList), (['Z'], [])]
      body := .form [([], .literal "a=b".toList), (['f'], .file "a (1)\\".toList),
        (['c'], .content "!file(x)".toList)] }, by decide +kernel, by decide +kernel, rfl, rfl,
    by decide +kernel, ?_⟩
  have hliteral : ¬ FieldValue.IsDirective "a=b".toList := by
    rintro ⟨name, argument, -, -, hvalue⟩
    exact absurd (List.cons.inj hvalue).1 (by decide)
  have hnames : WellNamed [("X Y".toList, "a: b".toList), (['Z'], [])] :=
    ⟨by decide +kernel, by decide +kernel, by decide +kernel⟩
  have hvalues : ∀ header ∈ [("X Y".toList, "a: b".toList), (['Z'], [])],
      ∀ c ∈ header.2.head?, isSpace c = false := by
    intro header hmem c hc
    rcases List.mem_pair.mp hmem with rfl | rfl
    · obtain rfl : 'a' = c := Option.some.inj hc
      decide
    · cases hc
  apply Request.ofBlock_toLines
  · refine ⟨hnames, hvalues, ?_, by decide +kernel, by decide +kernel⟩
    refine .form (by simp) (by decide) ?_
    simp only [List.mem_cons, List.not_mem_nil, or_false, forall_eq_or_imp, forall_eq]
    exact ⟨⟨by simp, .literal hliteral⟩, ⟨by decide, .file (by decide +kernel)⟩, by decide,
      .content (by decide +kernel)⟩
  all_goals
    unfold Table.Avoids
    decide +kernel

end PlainRequest
