/-
# PlainRequest.Proofs.Request.Characters — where the characters of a request come from

Reading a block adds no character of its own. What stands in the URL, in a header or in a body line of
a request stands in a line of the block, or in the value of a variable that was put in. So a character
that neither has, such as the line feed, which no line and no declared value has, is nowhere in the
request.
-/

import PlainRequest.Proofs.Request.Reading
import PlainRequest.Proofs.Variable.Declaration
import PlainRequest.Proofs.Variable.Substitution

namespace PlainRequest

open Text Line

namespace Head

/-- **`head.Avoids c`** — the character stands nowhere in the request. -/
structure Avoids (head : Head) (c : Char) : Prop where
  url : c ∉ head.url
  headers : ∀ header ∈ head.headers, c ∉ header.1 ∧ c ∉ header.2
  bodyLines : ∀ line ∈ head.bodyLines, c ∉ line

/-- **No character is added**: a request avoids what the lines of its block and the values of the
variables avoid. -/
theorem avoids_of_ofBlock {table : Table} {block : List Text} {head : Head} {c : Char}
    (hvalues : table.ValuesAvoid c) (hlines : ∀ line ∈ block, c ∉ line)
    (h : ofBlock table block = .ok head) : head.Avoids c := by
  obtain ⟨first, rest, target, hsignificant, hrequest, hurl, hheaders, hbody⟩ := of_ofBlock h
  have hcounts : ∀ line ∈ first :: rest, c ∉ line := by
    intro line hline
    rw [← hsignificant] at hline
    exact hlines line (mem_significant.mp hline).1
  refine ⟨?_, ?_, ?_⟩
  · have hfirst := hcounts first List.mem_cons_self
    rw [request?_eq_some_iff.mp hrequest, ofRequest, List.mem_append, not_or] at hfirst
    rw [hurl]
    exact hvalues.notMem_substitute hfirst.2
  · intro header hmem
    rw [hheaders] at hmem
    rcases Keyed.of_mem_putAll hmem with hwritten | hnone
    · obtain ⟨⟨name, value⟩, hread, rfl⟩ := List.mem_map.mp hwritten
      obtain ⟨line, hline, hheader⟩ := mem_splitHeaders hread
      obtain ⟨gap, hparts⟩ := exists_gap_of_header? hheader
      have hnot := hcounts line (List.mem_cons_of_mem _ hline)
      rw [hparts] at hnot
      simp only [List.mem_append, List.mem_cons, not_or] at hnot
      exact ⟨hnot.1, hvalues.notMem_substitute hnot.2.2.2⟩
    · cases hnone
  · intro line hmem
    rw [hbody] at hmem
    obtain ⟨source, hsource, rfl⟩ := List.mem_map.mp hmem
    rw [splitHeaders_eq] at hsource
    have hrest : source ∈ rest := (List.dropWhile_suffix _).subset hsource
    exact hvalues.notMem_substitute (hcounts source (List.mem_cons_of_mem _ hrest))

end Head

/-- The values of a resolved table hold no line feed. -/
theorem Table.valuesAvoid_newline_resolve (document block : List Text) :
    (resolve document block).ValuesAvoid '\n' :=
  fun _ hmem => newline_notMem_of_mem_resolve hmem

end PlainRequest
