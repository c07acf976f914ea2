/-
# PlainRequest.Proofs.Request.Reading — blocks that are read, and read again

What is known of a request that was read from a block: its headers have header names that open no
comment, and no name appears twice. A request line and header lines written for such headers are read
as what they were written for, and the lines behind them are read as if they stood there alone: if the
first of these is a header line, it is one more header.
-/

import PlainRequest.Proofs.Keyed
import PlainRequest.Proofs.Line
import PlainRequest.Request.Head

namespace PlainRequest

open Text Line

/-! ## Headers -/

/-- **`WellNamed headers`** — every name can stand before a colon, none opens a comment, and no name
appears twice. -/
structure WellNamed (headers : List (Text × Text)) : Prop where
  names : ∀ header ∈ headers, isHeaderName header.1 = true
  marks : ∀ header ∈ headers, header.1.head? ≠ some '#'
  distinct : (headers.map Prod.fst).Nodup

namespace Head

/-- Every header comes from a header line. -/
theorem mem_splitHeaders {lines : List Text} {header : Text × Text}
    (h : header ∈ (splitHeaders lines).1) : ∃ line ∈ lines, header? line = some header := by
  rw [splitHeaders_eq, List.mem_filterMap] at h
  obtain ⟨line, hline, hread⟩ := h
  exact ⟨line, List.takeWhile_subset _ hline, hread⟩

/-- What a block that is read consists of. -/
theorem of_ofBlock {table : Table} {block : List Text} {head : Head}
    (h : ofBlock table block = .ok head) :
    ∃ first rest target, significant block = first :: rest ∧
      request? first = some (head.method, target) ∧ head.url = table.substitute target ∧
      head.headers = Keyed.putAll ((splitHeaders rest).1.map fun (name, value) =>
        (name, table.substitute value)) [] ∧
      head.bodyLines = (splitHeaders rest).2.map table.substitute := by
  unfold ofBlock at h
  split at h
  · cases h
  · next first rest hlines =>
      split at h
      · cases h
      · next method target hrequest =>
          cases h
          exact ⟨first, rest, target, hlines, hrequest, rfl, rfl, rfl⟩

/-- **The headers of a request that was read** are well named. -/
theorem wellNamed_of_ofBlock {table : Table} {block : List Text} {head : Head}
    (h : ofBlock table block = .ok head) : WellNamed head.headers := by
  obtain ⟨first, rest, target, hlines, -, -, hheaders, -⟩ := of_ofBlock h
  have hsource : ∀ header ∈ head.headers,
      isHeaderName header.1 = true ∧ header.1.head? ≠ some '#' := by
    intro header hmem
    have hkey : header.1 ∈ head.headers.map Prod.fst := List.mem_map_of_mem hmem
    rw [hheaders] at hkey
    rcases Keyed.mem_keys_putAll hkey with hkey | hkey
    · obtain ⟨entry, hentry, heq⟩ := List.mem_map.mp hkey
      obtain ⟨⟨name, value⟩, hread, rfl⟩ := List.mem_map.mp hentry
      obtain ⟨line, hline, hheader⟩ := mem_splitHeaders hread
      obtain ⟨hname, hmark⟩ := of_header? hheader
      -- the line is one of the significant ones, so it is no comment
      have hsignificant : line ∈ significant block := by
        rw [hlines]
        exact List.mem_cons_of_mem _ hline
      have hcomment := (mem_significant.mp hsignificant).2.1
      rw [← heq]
      exact ⟨hname, hmark hcomment⟩
    · simp at hkey
  refine ⟨fun header hmem => (hsource header hmem).1, fun header hmem => (hsource header hmem).2, ?_⟩
  rw [hheaders]
  exact Keyed.nodup_putAll (by simp)

end Head

/-- Reading a block as a request is reading its head and classifying the body. -/
theorem Request.ofBlock_eq_map (table : Table) (block : List Text) :
    Request.ofBlock table block =
      (Head.ofBlock table block).map fun head =>
        { method := head.method, url := head.url, headers := head.headers
          body := Body.ofLines head.bodyLines } := by
  unfold Request.ofBlock
  cases Head.ofBlock table block <;> rfl

/-! ## Lines that are written for a request -/

/-- The request line and the header lines of a request. -/
def frontLines (method : Method) (url : Text) (headers : List (Text × Text)) : List Text :=
  ofRequest method url :: headers.map fun (name, value) => ofHeader name value

theorem significant_frontLines (method : Method) (url : Text) {headers : List (Text × Text)}
    (h : WellNamed headers) :
    significant (frontLines method url headers) = frontLines method url headers := by
  apply significant_eq_self
  intro line hline
  rcases List.mem_cons.mp hline with rfl | hline
  · cases method <;> exact ⟨rfl, rfl⟩
  · obtain ⟨⟨name, value⟩, hmem, rfl⟩ := List.mem_map.mp hline
    have hmark := h.marks (name, value) hmem
    have hne := ne_nil_of_isHeaderName (h.names (name, value) hmem)
    refine ⟨?_, ?_⟩
    · cases name with
      | nil => exact absurd rfl hne
      | cons c rest => simpa [isComment, ofHeader] using hmark
    · refine not_blank_of_mem (c := ':') ?_ (by decide)
      simp [ofHeader]

/-- Header lines in front of other lines are read as headers, each without the white space that its
value begins with. -/
theorem splitHeaders_append {headers : List (Text × Text)}
    (h : ∀ header ∈ headers, isHeaderName header.1 = true) (more : List Text) :
    Head.splitHeaders (headers.map (fun (name, value) => ofHeader name value) ++ more) =
      (headers.map (fun (name, value) => (name, trimStart value)) ++ (Head.splitHeaders more).1,
        (Head.splitHeaders more).2) := by
  induction headers with
  | nil => rfl
  | cons header headers ih =>
      obtain ⟨name, value⟩ := header
      have hread := header?_ofHeader value (h (name, value) (by simp))
      have hrest := ih fun other hmem => h other (List.mem_cons_of_mem _ hmem)
      rw [List.map_cons, List.cons_append, Head.splitHeaders]
      simp only [hread, hrest]
      rfl

/-- **Reading what was written.** If no variable of the table occurs in the URL and in the header
values, and no value begins with white space, then a request line and header lines are read as what
they were written for. What is read from the lines behind them is added: headers, and the body. -/
theorem ofBlock_frontLines {table : Table} {url : Text} {headers : List (Text × Text)}
    (method : Method) (hnames : WellNamed headers) (hurl : table.substitute url = url)
    (hvalues : ∀ header ∈ headers, table.substitute header.2 = header.2)
    (hspaces : ∀ header ∈ headers, ∀ c ∈ header.2.head?, isSpace c = false) (more : List Text) :
    Head.ofBlock table (frontLines method url headers ++ more) =
      .ok { method
            url
            headers := Keyed.putAll ((Head.splitHeaders (significant more)).1.map
              fun (name, value) => (name, table.substitute value)) headers
            bodyLines := (Head.splitHeaders (significant more)).2.map table.substitute } := by
  have hkept : (headers.map fun (name, value) => (name, trimStart value)).map
      (fun (name, value) => (name, table.substitute value)) = headers := by
    rw [List.map_map]
    refine (List.map_congr_left ?_).trans (List.map_id _)
    rintro ⟨name, value⟩ hmem
    show (name, table.substitute (trimStart value)) = (name, value)
    rw [trimStart_eq_self (hspaces (name, value) hmem), hvalues (name, value) hmem]
  have hput : Keyed.putAll headers [] = headers := Keyed.putAll_of_nodup hnames.distinct
  unfold Head.ofBlock
  rw [significant_append, significant_frontLines method url hnames, frontLines, List.cons_append]
  simp only [request?_ofRequest, splitHeaders_append hnames.names, List.map_append, hkept, hurl]
  rw [Keyed.putAll_append, hput]
  rfl

end PlainRequest
