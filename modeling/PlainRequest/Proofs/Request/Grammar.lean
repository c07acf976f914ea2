/-
# PlainRequest.Proofs.Request.Grammar — the lines of a block, declared

A block is a request line, a run of header lines, and a body. `Layout` says this of the lines that
count without reading them in turn: the run is as long as it can be, since the line behind it is no
header line. Reading a block is then exact in both directions. A block with a layout is read as what
the layout says, the headers being those of the run with `LastWins`; a block without one fails, and the
error names what is missing.
-/

import PlainRequest.Proofs.Keyed
import PlainRequest.Proofs.Line
import PlainRequest.Request.Head
import Mathlib.Data.List.TakeWhile

namespace PlainRequest

open Text Line Keyed

/-- **`Layout block method target run body`** — of the lines that are neither comments nor blank, the
first is the request line of `method` and `target`, then comes `run`, every line of it a header line,
and then `body`, which does not begin with a header line. -/
structure Layout (block : List Text) (method : Method) (target : Text) (run body : List Text) :
    Prop where
  lines : significant block = ofRequest method target :: (run ++ body)
  headers : ∀ line ∈ run, (header? line).isSome
  stops : ∀ line ∈ body.head?, header? line = none

/-- Any lines are a run of header lines and a rest that does not begin with one. -/
theorem exists_layout {block others : List Text} {method : Method} {target : Text}
    (h : significant block = ofRequest method target :: others) :
    ∃ run body, others = run ++ body ∧ Layout block method target run body := by
  have hcut := List.takeWhile_append_dropWhile (p := fun line => (header? line).isSome) (l := others)
  refine ⟨_, _, hcut.symm, ?_, ?_, ?_⟩
  · rw [hcut]
    exact h
  · intro line hline
    exact List.mem_takeWhile_imp (p := fun line => (header? line).isSome) hline
  · intro line hline
    have hfirst := List.head?_dropWhile_not (fun line => (header? line).isSome) others
    rw [Option.mem_def] at hline
    rw [hline] at hfirst
    simpa using hfirst

namespace Head

/-- A run of header lines is read as headers, and nothing behind it is. -/
theorem splitHeaders_of_run {run body : List Text} (hrun : ∀ line ∈ run, (header? line).isSome)
    (hbody : ∀ line ∈ body.head?, header? line = none) :
    splitHeaders (run ++ body) = (run.filterMap header?, body) := by
  induction run with
  | nil =>
      cases body with
      | nil => rfl
      | cons line rest =>
          have hline : header? line = none := hbody line rfl
          rw [List.nil_append, splitHeaders, hline]
          rfl
  | cons line run ih =>
      have hrest := ih fun other hmem => hrun other (List.mem_cons_of_mem _ hmem)
      obtain ⟨header, hheader⟩ := Option.isSome_iff_exists.mp (hrun line (by simp))
      rw [List.cons_append, splitHeaders, hheader, List.filterMap_cons, hheader]
      simp only [hrest]

/-- **`ofLayout table method target run body`** — the request that is laid out so. -/
def ofLayout (table : Table) (method : Method) (target : Text) (run body : List Text) : Head :=
  { method
    url := table.substitute target
    headers := putAll (mapValues table.substitute (run.filterMap header?)) []
    bodyLines := body.map table.substitute }

theorem ofBlock_of_layout {block : List Text} {method : Method} {target : Text}
    {run body : List Text} (table : Table) (h : Layout block method target run body) :
    ofBlock table block = .ok (ofLayout table method target run body) := by
  unfold ofBlock
  rw [h.lines]
  simp only [request?_ofRequest, splitHeaders_of_run h.headers h.stops]
  rfl

/-- **The three ways a block can be**: nothing counts in it, or its first line is no request line, or
it has a layout. -/
theorem ofBlock_cases (table : Table) (block : List Text) :
    (significant block = [] ∧ ofBlock table block = .error .emptyBlock) ∨
    (∃ line others, significant block = line :: others ∧
      (∀ method target, line ≠ ofRequest method target) ∧
      ofBlock table block = .error (.malformedRequestLine line)) ∨
    ∃ method target run body, Layout block method target run body ∧
      ofBlock table block = .ok (ofLayout table method target run body) := by
  cases hlines : significant block with
  | nil =>
      refine .inl ⟨rfl, ?_⟩
      unfold ofBlock
      rw [hlines]
      rfl
  | cons line others =>
      right
      cases hrequest : request? line with
      | none =>
          refine .inl ⟨line, others, rfl, request?_eq_none_iff.mp hrequest, ?_⟩
          unfold ofBlock
          rw [hlines]
          simp only [hrequest]
          rfl
      | some request =>
          obtain ⟨method, target⟩ := request
          rw [request?_eq_some_iff] at hrequest
          obtain ⟨run, body, -, hlayout⟩ := exists_layout (hrequest ▸ hlines)
          exact .inr ⟨method, target, run, body, hlayout, ofBlock_of_layout table hlayout⟩

theorem ofBlock_eq_emptyBlock_iff (table : Table) (block : List Text) :
    ofBlock table block = .error .emptyBlock ↔ significant block = [] := by
  rcases ofBlock_cases table block with ⟨hlines, hread⟩ | ⟨line, others, hlines, -, hread⟩ |
    ⟨method, target, run, body, hlayout, hread⟩
  · simp [hlines, hread]
  · simp [hlines, hread]
  · simp [hlayout.lines, hread]

theorem ofBlock_eq_malformedRequestLine_iff (table : Table) (block : List Text) (line : Text) :
    ofBlock table block = .error (.malformedRequestLine line) ↔
      ∃ others, significant block = line :: others ∧
        ∀ method target, line ≠ ofRequest method target := by
  rcases ofBlock_cases table block with ⟨hlines, hread⟩ | ⟨first, others, hlines, hnone, hread⟩ |
    ⟨method, target, run, body, hlayout, hread⟩
  · simp [hlines, hread]
  · rw [hread, hlines]
    constructor
    · intro heq
      obtain rfl : first = line := by simpa using heq
      exact ⟨others, rfl, hnone⟩
    · rintro ⟨others', heq, -⟩
      rw [(List.cons.inj heq).1]
  · rw [hread, hlayout.lines]
    constructor
    · intro heq
      cases heq
    · -- the first line is a request line after all
      rintro ⟨others, heq, hnone⟩
      exact absurd (List.cons.inj heq).1.symm (hnone method target)

/-- **Reading is exact**: a block is read as a request if and only if it has a layout and the request
holds what is laid out, its headers being those of the run. -/
theorem ofBlock_eq_ok_iff (table : Table) (block : List Text) (head : Head) :
    ofBlock table block = .ok head ↔
      ∃ target run body, Layout block head.method target run body ∧
        head.url = table.substitute target ∧
        LastWins (mapValues table.substitute (run.filterMap header?)) head.headers ∧
        head.bodyLines = body.map table.substitute := by
  constructor
  · intro h
    rcases ofBlock_cases table block with ⟨-, hread⟩ | ⟨line, others, -, -, hread⟩ |
      ⟨method, target, run, body, hlayout, hread⟩
    · rw [hread] at h
      cases h
    · rw [hread] at h
      cases h
    · obtain rfl := Except.ok.inj (hread.symm.trans h)
      exact ⟨target, run, body, hlayout, rfl, lastWins_putAll _, rfl⟩
  · rintro ⟨target, run, body, hlayout, hurl, hheaders, hbody⟩
    rw [ofBlock_of_layout table hlayout, Except.ok.injEq]
    obtain ⟨method, url, headers, bodyLines⟩ := head
    rw [ofLayout, Head.mk.injEq]
    exact ⟨rfl, hurl.symm, (lastWins_putAll _).unique hheaders, hbody.symm⟩

end Head

/-- A request that is laid out is read, and each of its headers has the value of the last line of the
run with its name. -/
theorem Request.header?_of_layout (table : Table) {block : List Text} {method : Method}
    {target : Text} {run body : List Text} (h : Layout block method target run body) :
    ∃ request, Request.ofBlock table block = .ok request ∧ request.method = method ∧
      ∀ name, request.header? name =
        (last? name (run.filterMap Line.header?)).map table.substitute := by
  have hread : Request.ofBlock table block =
      .ok { method, url := table.substitute target
            headers := putAll (mapValues table.substitute (run.filterMap Line.header?)) []
            body := Body.ofLines (body.map table.substitute) } := by
    unfold Request.ofBlock
    rw [Head.ofBlock_of_layout table h]
    rfl
  refine ⟨_, hread, rfl, ?_⟩
  intro name
  show get? name (putAll _ []) = _
  rw [get?_putAll, last?_mapValues]
  exact Option.or_none

/-- **The reader of blocks is its grammar.** With the comments and blank lines left out, a block is
refused as empty if and only if no line is left; its first line is refused, and reported as it is
written, if and only if it is no request line; and it is read as a request if and only if the request
holds what `Layout` says: the method, the target with its variables replaced, the headers of the
longest run of header lines (names in the order of their first line, values from their last, variables
replaced), and the lines behind the run as body lines, variables replaced. So a block that begins with
a request line is read, and a header is found under the last value that the run has for its name, or
not at all. -/
theorem Head.ofBlock_iff_layout (table : Table) (block : List Text) :
    (Head.ofBlock table block = .error .emptyBlock ↔ significant block = []) ∧
    (∀ line, Head.ofBlock table block = .error (.malformedRequestLine line) ↔
      ∃ others, significant block = line :: others ∧
        ∀ (method : Method) (target : Text), line ≠ method.name ++ [' '] ++ target) ∧
    (∀ head, Head.ofBlock table block = .ok head ↔
      ∃ target run body, Layout block head.method target run body ∧
        head.url = table.substitute target ∧
        LastWins (mapValues table.substitute (run.filterMap Line.header?)) head.headers ∧
        head.bodyLines = body.map table.substitute) ∧
    (∀ (method : Method) (target : Text) (others : List Text),
      significant block = (method.name ++ [' '] ++ target) :: others →
      ∃ run body request, others = run ++ body ∧ Layout block method target run body ∧
        Request.ofBlock table block = .ok request ∧ request.method = method ∧
        ∀ name,
          request.header? name = (last? name (run.filterMap Line.header?)).map table.substitute ∧
          (request.header? name = none ↔ name ∉ (run.filterMap Line.header?).map Prod.fst)) := by
  refine ⟨ofBlock_eq_emptyBlock_iff table block, ofBlock_eq_malformedRequestLine_iff table block,
    ofBlock_eq_ok_iff table block, ?_⟩
  intro method target others hlines
  obtain ⟨run, body, hcut, hlayout⟩ := exists_layout hlines
  obtain ⟨request, hread, hmethod, hheader⟩ := Request.header?_of_layout table hlayout
  refine ⟨run, body, request, hcut, hlayout, hread, hmethod, ?_⟩
  intro name
  refine ⟨hheader name, ?_⟩
  rw [hheader name, Option.map_eq_none_iff, last?_eq_none_iff]

end PlainRequest
