/-
# PlainRequest.Proofs.Curl.ReadBack — a written command is read back as what it was made from

The words of a written command are read by the grammar of curl as one method, the headers in order,
`-v`, one text of data and one URL, whatever dashes the headers and the data start with; only a URL
that looks like an option is not taken for one. From there the lines of the rebuilt block are known
exactly.
-/

import PlainRequest.Proofs.Arguments.Reading
import PlainRequest.Proofs.Curl.CommandWords

namespace PlainRequest.Curl

open Text Arguments Reading

/-! ## The grammar of curl -/

/-- `-H` may be given at any time. -/
theorem readWords_header {reading : Reading Key} {given : List (Key × Text)} {count : Nat}
    (h : Settles reading given count) (value : Text) (words : List Text) :
    ∃ next, reading.readWords grammar ("-H".toList :: value :: words) =
        readWords grammar next words ∧
      Settles next (given ++ [(Key.header, value)]) count := by
  have hfind : grammar.options.find? (·.letter = some 'H') = some _ := rfl
  exact readWords_valueOption rfl h 'H' (by decide) hfind rfl ⟨fun _ => rfl, .inl rfl⟩ value words

/-- `-X` may be given once. -/
theorem readWords_method {reading : Reading Key} {given : List (Key × Text)} {count : Nat}
    (h : Settles reading given count) (hfree : Key.method ∉ given.map Prod.fst) (value : Text)
    (words : List Text) :
    ∃ next, reading.readWords grammar ("-X".toList :: value :: words) =
        readWords grammar next words ∧
      Settles next (given ++ [(Key.method, value)]) count := by
  have hfind : grammar.options.find? (·.letter = some 'X') = some _ := rfl
  exact readWords_valueOption rfl h 'X' (by decide) hfind rfl ⟨fun _ => rfl, .inr hfree⟩ value words

/-- `-d` may be given once. -/
theorem readWords_data {reading : Reading Key} {given : List (Key × Text)} {count : Nat}
    (h : Settles reading given count) (hfree : Key.data ∉ given.map Prod.fst) (value : Text)
    (words : List Text) :
    ∃ next, reading.readWords grammar ("-d".toList :: value :: words) =
        readWords grammar next words ∧
      Settles next (given ++ [(Key.data, value)]) count := by
  have hfind : grammar.options.find? (·.letter = some 'd') = some _ := rfl
  exact readWords_valueOption rfl h 'd' (by decide) hfind rfl ⟨fun _ => rfl, .inr hfree⟩ value words

/-- `-v` may be given at any time. -/
theorem readWords_verbose {reading : Reading Key} {given : List (Key × Text)} {count : Nat}
    (h : Settles reading given count) (words : List Text) :
    ∃ next, reading.readWords grammar ("-v".toList :: words) = readWords grammar next words ∧
      Settles next (given ++ [(Key.verbose, [])]) count := by
  have hfind : grammar.options.find? (·.letter = some 'v') = some _ := rfl
  exact readWords_switch rfl h 'v' (by decide) hfind rfl ⟨fun _ => rfl, .inl rfl⟩ words

/-- A plain word is the URL, if there is none yet. -/
theorem readWords_url {reading : Reading Key} {given : List (Key × Text)}
    (h : Settles reading given 0) (hfree : Key.url ∉ given.map Prod.fst) {word : Text}
    (hplain : IsPlain word) (words : List Text) :
    ∃ next, reading.readWords grammar (word :: words) = readWords grammar next words ∧
      Settles next (given ++ [(Key.url, word)]) 1 := by
  have hoperand : grammar.operands[0]? = some _ := rfl
  exact readWords_operand rfl h hplain hoperand rfl ⟨fun _ => rfl, .inr hfree⟩ words

/-- Without a URL a command is refused at the end. -/
theorem finish_of_lacks_url {reading : Reading Key} (h : Lacks Key.url reading) :
    ∃ stop, reading.finish grammar = .error stop :=
  finish_of_lacks (List.mem_singleton.mpr rfl) rfl h

/-! ## The words of a written command -/

/-- The pairs that the headers of a command give. -/
def headerGiven (headers : List (Text × Text)) : List (Key × Text) :=
  headers.map fun (name, value) => (Key.header, Line.ofHeader name value)

/-- What is given in front of the URL. -/
def frontGiven (head : Head) : List (Key × Text) :=
  [(Key.method, head.method.name)] ++ headerGiven head.headers
    ++ [(Key.verbose, []), (Key.data, dataOf head.bodyLines)]

theorem keys_headerGiven {headers : List (Text × Text)} {key : Key}
    (h : key ∈ (headerGiven headers).map Prod.fst) : key = .header := by
  simp only [headerGiven, List.map_map, List.mem_map] at h
  obtain ⟨header, -, rfl⟩ := h
  rfl

theorem url_notMem_frontGiven (head : Head) : Key.url ∉ (frontGiven head).map Prod.fst := by
  intro hmem
  simp only [frontGiven, List.map_append, List.mem_append] at hmem
  rcases hmem with (hmethod | hheader) | hrest
  · simp at hmethod
  · exact absurd (keys_headerGiven hheader) (by decide)
  · simp at hrest

/-- All headers are given, one after another. -/
theorem readWords_headers (headers : List (Text × Text)) {reading : Reading Key}
    {given : List (Key × Text)} {count : Nat} (h : Settles reading given count)
    (words : List Text) :
    ∃ next, reading.readWords grammar (headerWords headers ++ words) =
        readWords grammar next words ∧
      Settles next (given ++ headerGiven headers) count := by
  induction headers generalizing reading given with
  | nil => exact ⟨reading, rfl, by simpa [headerGiven] using h⟩
  | cons header headers ih =>
      obtain ⟨name, value⟩ := header
      obtain ⟨middle, hread, hmiddle⟩ :=
        readWords_header h (Line.ofHeader name value) (headerWords headers ++ words)
      obtain ⟨next, hrest, hnext⟩ := ih hmiddle
      refine ⟨next, ?_, ?_⟩
      · exact hread.trans hrest
      · simpa [headerGiven, List.append_assoc] using hnext

/-- Everything in front of the URL is given. -/
theorem readWords_front (head : Head) :
    ∃ next, readWords grammar {} (dropCommandName (commandWords head)) =
        readWords grammar next [head.url] ∧
      Settles next (frontGiven head) 0 := by
  have hwords : dropCommandName (commandWords head) =
      "-X".toList :: head.method.name :: (headerWords head.headers
        ++ "-v".toList :: "-d".toList :: dataOf head.bodyLines :: [head.url]) := by
    simp [commandWords, dropCommandName]
  -- one option after another: the method, the headers, `-v` and the data
  obtain ⟨r1, h1, s1⟩ := readWords_method settles_start (by simp) head.method.name
    (headerWords head.headers
      ++ "-v".toList :: "-d".toList :: dataOf head.bodyLines :: [head.url])
  obtain ⟨r2, h2, s2⟩ := readWords_headers head.headers s1
    ("-v".toList :: "-d".toList :: dataOf head.bodyLines :: [head.url])
  obtain ⟨r3, h3, s3⟩ := readWords_verbose s2 ("-d".toList :: dataOf head.bodyLines :: [head.url])
  obtain ⟨r4, h4, s4⟩ := readWords_data s3 (by
    intro hmem
    simp only [List.map_append, List.mem_append] at hmem
    rcases hmem with (hmethod | hheader) | hverbose
    · simp at hmethod
    · exact absurd (keys_headerGiven hheader) (by decide)
    · simp at hverbose) (dataOf head.bodyLines) [head.url]
  refine ⟨r4, ?_, ?_⟩
  · rw [hwords, h1, h2, h3, h4]
  · simpa [frontGiven] using s4

/-- What the command for a request asks for: the request again, its body as one text. -/
def callOf (head : Head) : Call :=
  { method := some head.method.name
    headers := head.headers.map fun (name, value) => Line.ofHeader name value
    data := some (dataOf head.bodyLines)
    url := head.url }

theorem valuesOf_headerGiven (headers : List (Text × Text)) :
    valuesOf Key.header (headerGiven headers) =
      headers.map fun (name, value) => Line.ofHeader name value := by
  induction headers with
  | nil => rfl
  | cons header headers ih =>
      rw [List.map_cons, ← ih]
      rfl

/-- **A plain URL**: the words of a command are read as what it was made from. -/
theorem ofWords_of_plain {head : Head} (h : IsPlain head.url) :
    Call.ofWords (dropCommandName (commandWords head)) = .ok (callOf head) := by
  obtain ⟨front, hread, hfront⟩ := readWords_front head
  obtain ⟨last, hurl, hlast⟩ := readWords_url hfront (url_notMem_frontGiven head) h []
  have hgiven : Arguments.read grammar (dropCommandName (commandWords head)) =
      .ok (frontGiven head ++ [(Key.url, head.url)]) := by
    unfold Arguments.read
    rw [hread, hurl]
    exact finish_of_settles hlast (by simp [grammar])
  have hnoneOf : ∀ key, key ≠ Key.header → valueOf? key (headerGiven head.headers) = none :=
    fun key hkey => valueOf?_eq_none fun hmem => hkey (keys_headerGiven hmem)
  unfold Call.ofWords
  rw [hgiven]
  simp only [frontGiven, bind, Except.bind, pure, Except.pure, callOf, Except.ok.injEq,
    Call.mk.injEq]
  refine ⟨?_, ?_, ?_, ?_⟩
  · simp [valueOf?_append, valueOf?_cons, hnoneOf]
  · rw [valuesOf_append, valuesOf_append, valuesOf_append, valuesOf_headerGiven]
    simp [valuesOf]
  · simp [valueOf?_append, valueOf?_cons]
  · simp [valueOf?_append, valueOf?_cons]

/-- **A URL that looks like an option**: there is no operand, so the words are refused. -/
theorem ofWords_of_not_plain {head : Head} (h : ¬ IsPlain head.url) :
    ∃ stop, Call.ofWords (dropCommandName (commandWords head)) = .error stop := by
  obtain ⟨front, hread, hfront⟩ := readWords_front head
  obtain ⟨hopen, -, hidle⟩ := of_settles hfront
  have hlacks := lacks_of_settles hfront (url_notMem_frontGiven head)
  have hrefused : ∃ stop,
      Arguments.read grammar (dropCommandName (commandWords head)) = .error stop := by
    show ∃ stop, readFrom grammar {} _ = _
    rw [readFrom_of_readWords hread]
    -- the URL is refused as an option, or it is one and no operand is left
    cases hword : front.readWord grammar head.url with
    | error stop => exact ⟨stop, readFrom_of_error rfl hword []⟩
    | ok next =>
        rw [readFrom_of_readWords (readWords_cons rfl hword [])]
        have hnext := lacks_readWord (by decide) hopen hidle h hlacks hword
        exact finish_of_lacks_url hnext
  obtain ⟨stop, hstop⟩ := hrefused
  refine ⟨stop, ?_⟩
  unfold Call.ofWords
  rw [hstop]
  rfl

/-! ## The rebuilt block -/

/-- **`rebuilt head`** — the lines of a block that the command for a request is read back as. -/
def rebuilt (head : Head) : List Text :=
  frontLines head.method head.url head.headers ++ dataLines (dataOf head.bodyLines)

theorem toLines_callOf (head : Head) : (callOf head).toLines = rebuilt head := rfl

/-- The command for a block, with the request that it was made from. -/
theorem words?_of_command {table : Table} {block : List Text} {command : Text} {head : Head}
    (h : ofBlock table block = .ok command) (hhead : Head.ofBlock table block = .ok head) :
    Shell.words? command = some (commandWords head) := by
  obtain ⟨head', hhead', -, hwords⟩ := words?_of_ofBlock h
  rw [hhead, Except.ok.injEq] at hhead'
  rw [hwords, hhead']

/-- With a plain URL a command is read back as the rebuilt block. -/
theorem toLines_of_plain {table : Table} {block : List Text} {command : Text} {head : Head}
    (h : ofBlock table block = .ok command) (hhead : Head.ofBlock table block = .ok head)
    (hplain : IsPlain head.url) : toLines command = .ok (rebuilt head) := by
  unfold toLines
  simp only [words?_of_command h hhead, ofWords_of_plain hplain, toLines_callOf]
  rfl

/-- With a URL that looks like an option it is not read back at all. -/
theorem toLines_of_not_plain {table : Table} {block : List Text} {command : Text} {head : Head}
    (h : ofBlock table block = .ok command) (hhead : Head.ofBlock table block = .ok head)
    (hplain : ¬ IsPlain head.url) : ∃ failure, toLines command = .error failure := by
  obtain ⟨stop, hstop⟩ := ofWords_of_not_plain hplain
  refine ⟨.curl (.arguments stop), ?_⟩
  unfold toLines
  simp only [words?_of_command h hhead, hstop]
  rfl

/-- **From a block to a command and back, exactly.** The command for a block is readable if and only
if the URL does not begin with a dash or is a dash alone. What is read is the request line, one line
for each header in order, and then: nothing for empty data, the lines of the data's JSON text in the
four-space ASCII layout if the data are JSON, and else the data as one line. -/
theorem toLines_ofBlock {table : Table} {block : List Text} {command : Text}
    (h : ofBlock table block = .ok command) :
    ∃ head, Head.ofBlock table block = .ok head ∧
      ((∃ lines, toLines command = .ok lines) ↔ head.url.head? ≠ some '-' ∨ head.url = ['-']) ∧
      ∀ lines, toLines command = .ok lines →
        lines = [head.method.name ++ [' '] ++ head.url]
          ++ head.headers.map (fun (name, value) => name ++ ": ".toList ++ value)
          ++ (let data := joinWith [' '] (head.bodyLines.map trim)
              if data.isEmpty then []
              else match Json.reformat? ⟨4, true⟩ data with
                | some json => Text.lines json
                | none => [data]) := by
  obtain ⟨head, hhead, -, -⟩ := words?_of_ofBlock h
  refine ⟨head, hhead, ?_, ?_⟩
  · constructor
    · rintro ⟨lines, hlines⟩
      by_contra hplain
      obtain ⟨failure, hfailure⟩ := toLines_of_not_plain h hhead hplain
      rw [hfailure] at hlines
      simp at hlines
    · intro hplain
      exact ⟨_, toLines_of_plain h hhead hplain⟩
  · intro lines hlines
    by_cases hplain : IsPlain head.url
    · rw [toLines_of_plain h hhead hplain, Except.ok.injEq] at hlines
      rw [← hlines]
      rfl
    · obtain ⟨failure, hfailure⟩ := toLines_of_not_plain h hhead hplain
      rw [hfailure] at hlines
      simp at hlines

/-- Quotation marks, a dollar sign and dashes come back as they were. -/
theorem toLines_ofBlock_quoted :
    ∃ command, ofBlock Table.empty ["POST http://h/a?b&c".toList, "X: $y".toList,
        "say \"hi\"".toList, " -- z".toList] = .ok command ∧
      toLines command = .ok ["POST http://h/a?b&c".toList, "X: $y".toList,
        "say \"hi\" -- z".toList] := by
  have hhead : Head.ofBlock Table.empty ["POST http://h/a?b&c".toList, "X: $y".toList,
      "say \"hi\"".toList, " -- z".toList] = .ok
        { method := .post, url := "http://h/a?b&c".toList, headers := [(['X'], "$y".toList)]
          bodyLines := ["say \"hi\"".toList, " -- z".toList] } := by
    decide +kernel
  obtain ⟨quotedUrl, -, hcommand⟩ := ofBlock_of_quotable hhead (by decide)
  obtain ⟨head, hread, hreadable, hlines⟩ := toLines_ofBlock hcommand
  obtain rfl := Except.ok.inj (hhead.symm.trans hread)
  obtain ⟨lines, hok⟩ := hreadable.mpr (.inl (by decide))
  refine ⟨_, hcommand, ?_⟩
  rw [hok, hlines lines hok]
  decide +kernel

end PlainRequest.Curl
