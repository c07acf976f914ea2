/-
# PlainRequest.Proofs.Json.Indentation — a line is indented by its depth

How deep a line is follows from the text in front of it: it is the number of containers that its
tokens have left open, and one less if the line begins with the end of a container. Every line of a
value that is written begins with as many spaces as the style asks for at its depth, and goes on
with something visible. `Nests` says this of any part of such a text, with the depths at its two
ends, so that parts can be put together.
-/

import PlainRequest.Proofs.Json.Layout

namespace PlainRequest.Json

open Text

/-! ## Depth -/

/-- The depth behind a token. -/
def Token.deepen (depth : Nat) : Token → Nat
  | .openArray | .openObject => depth + 1
  | .closeArray | .closeObject => depth - 1
  | _ => depth

/-- The depth behind tokens that begin at a depth. -/
def depthBehind (depth : Nat) (tokens : List Token) : Nat := tokens.foldl Token.deepen depth

/-- The depth of a line that begins with a character: the end of a container is as deep as its
start. -/
def lineDepth (depth : Nat) (c : Char) : Nat := if c = ']' ∨ c = '}' then depth - 1 else depth

theorem depthBehind_append (depth : Nat) (tokens others : List Token) :
    depthBehind depth (tokens ++ others) = depthBehind (depthBehind depth tokens) others :=
  List.foldl_append

/-! ## Texts with indented lines -/

/-- **`BeginsLine indent depth rest`** — the spaces for the depth, and something visible. -/
def BeginsLine (indent depth : Nat) (rest : Text) : Prop :=
  ∃ c more, rest = List.replicate (indent * lineDepth depth c) ' ' ++ c :: more ∧ isSpace c = false

/-- **`Nests indent depth text after`** — the text leads from one depth to another, and every line
that begins in it is indented by its depth. -/
structure Nests (indent depth : Nat) (text : Text) (after : Nat) : Prop where
  tokens : ∃ tokens, tokens? text = some tokens ∧ depthBehind depth tokens = after
  lines : ∀ before rest, text = before ++ '\n' :: rest →
    ∃ tokens, tokens? before = some tokens ∧ BeginsLine indent (depthBehind depth tokens) rest

variable {indent depth middle after : Nat} {text more : Text}

theorem BeginsLine.append (h : BeginsLine indent depth text) (more : Text) :
    BeginsLine indent depth (text ++ more) := by
  obtain ⟨c, others, rfl, hspace⟩ := h
  refine ⟨c, others ++ more, ?_, hspace⟩
  rw [List.append_assoc, List.cons_append]

/-- **Texts that fit are put together**, if no number goes on from one into the other. -/
theorem Nests.append (h : Nests indent depth text middle) (hmore : Nests indent middle more after)
    (hends : EndsNumbers more) : Nests indent depth (text ++ more) after where
  tokens := by
    obtain ⟨tokens, htokens, hdepth⟩ := h.tokens
    obtain ⟨others, hothers, hafter⟩ := hmore.tokens
    refine ⟨tokens ++ others, ?_, ?_⟩
    · rw [tokens?_append hends htokens, hothers]
      rfl
    · rw [depthBehind_append, hdepth, hafter]
  lines := by
    intro before rest hcut
    -- a line that begins in the second text is as deep as it is there
    have hsecond : ∀ inner, more = inner ++ '\n' :: rest →
        ∃ tokens, tokens? (text ++ inner) = some tokens ∧
          BeginsLine indent (depthBehind depth tokens) rest := by
      intro inner hmoreCut
      obtain ⟨tokens, htokens, hdepth⟩ := h.tokens
      obtain ⟨others, hothers, hbegins⟩ := hmore.lines inner rest hmoreCut
      have hendsInner : EndsNumbers inner := by
        rw [hmoreCut] at hends
        cases inner with
        | nil => exact endsNumbers_nil
        | cons c inner => exact hends
      refine ⟨tokens ++ others, ?_, ?_⟩
      · rw [tokens?_append hendsInner htokens, hothers]
        rfl
      · rwa [depthBehind_append, hdepth]
    rcases List.append_eq_append_iff.mp hcut with ⟨inner, rfl, hinner⟩ | ⟨inner, htext, hinner⟩
    · exact hsecond inner hinner
    · cases inner with
      | nil =>
          have hwhole := hsecond [] hinner.symm
          rwa [htext, List.append_nil, List.append_nil] at hwhole
      | cons c inner =>
          -- the line begins in the first text, and goes on with the second
          obtain ⟨rfl, rfl⟩ := List.cons.inj hinner
          obtain ⟨tokens, htokens, hbegins⟩ := h.lines before inner htext
          exact ⟨tokens, htokens, hbegins.append more⟩

/-- A text without line feeds. -/
theorem nests_of_notMem {tokens : List Token} (h : tokens? text = some tokens)
    (hnone : '\n' ∉ text) : Nests indent depth text (depthBehind depth tokens) where
  tokens := ⟨tokens, h, rfl⟩
  lines := by
    rintro before rest rfl
    exact absurd (by simp) hnone

/-- A gap in front of a text: a line may begin behind it. -/
theorem Nests.gap {c : Char} (h : Nests indent depth text after) (hgap : isGap c = true)
    (hbegins : c = '\n' → BeginsLine indent depth text) : Nests indent depth (c :: text) after where
  tokens := by
    rw [tokens?_gap hgap]
    exact h.tokens
  lines := by
    intro before rest hcut
    cases before with
    | nil =>
        obtain ⟨hc, rfl⟩ := List.cons.inj hcut
        exact ⟨[], tokens?_nil, hbegins hc⟩
    | cons first before =>
        obtain ⟨rfl, hinner⟩ := List.cons.inj hcut
        rw [tokens?_gap hgap]
        exact h.lines before rest hinner

/-- **`StandsAt depth text line`** — the text begins visibly, with something that stands on a line
of that depth. -/
def StandsAt (depth : Nat) (text : Text) (line : Nat) : Prop :=
  ∃ c more, text = c :: more ∧ isSpace c = false ∧ lineDepth depth c = line

theorem StandsAt.append {line : Nat} (h : StandsAt depth text line) (more : Text) :
    StandsAt depth (text ++ more) line := by
  obtain ⟨c, others, rfl, hc⟩ := h
  exact ⟨c, others ++ more, rfl, hc⟩

/-- **A line that is begun** at the depth of what stands on it. -/
theorem Nests.newline {style : Style} {line : Nat} (h : Nests style.indent depth text after)
    (hstands : StandsAt depth text line) :
    Nests style.indent depth (newline style line ++ text) after := by
  have hspaces : ∀ count, Nests style.indent depth (List.replicate count ' ' ++ text) after := by
    intro count
    induction count with
    | zero => exact h
    | succ count ih => exact ih.gap rfl (fun hc => absurd hc (by decide))
  apply (hspaces _).gap rfl
  rintro -
  obtain ⟨c, more, rfl, hspace, rfl⟩ := hstands
  exact ⟨c, more, rfl, hspace⟩

/-! ## What is written nests -/

/-- A character that is a token. -/
theorem nests_mark {c : Char} {token : Token} (h : mark? c = some token) :
    Nests indent depth [c] (token.deepen depth) := by
  have htokens : tokens? [c] = some [token] := by
    rw [tokens?_mark h, tokens?_nil]
    rfl
  apply nests_of_notMem htokens
  rw [List.mem_singleton]
  rintro rfl
  have hnone : mark? '\n' = none := by decide
  rw [hnone] at h
  cases h

theorem nests_writeString (escapeNonAscii : Bool) (string : Text) :
    Nests indent depth (writeString escapeNonAscii string) depth := by
  have htokens := tokens?_writeString escapeNonAscii string []
  rw [List.append_nil, tokens?_nil] at htokens
  exact nests_of_notMem htokens (newline_notMem_writeString escapeNonAscii string)

/-- **`IsNested style value`** — the value can be written at every depth, and begins a line there.
-/
def IsNested (style : Style) (value : Json) : Prop :=
  ∀ depth, Nests style.indent depth (write style depth value) depth ∧
    StandsAt depth (write style depth value) depth

theorem nests_writeItems {style : Style} {items : List Json}
    (h : ∀ item ∈ items, IsNested style item) (depth : Nat) :
    Nests style.indent depth (writeItems style depth items) depth := by
  induction items with
  | nil => exact nests_of_notMem tokens?_nil List.not_mem_nil
  | cons item items ih =>
      rw [List.forall_mem_cons] at h
      obtain ⟨hitem, hstands⟩ := h.1 depth
      have hends := endsNumbers_writeItems style depth items endsNumbers_nil
      rw [List.append_nil] at hends
      rw [writeItems_cons]
      apply (nests_mark (c := ',') rfl).append _ (endsNumbers_of_newline style depth _)
      exact (hitem.append (ih h.2) hends).newline (hstands.append _)

/-- A member on a line of its own, and what follows it. -/
theorem nests_member {style : Style} {value : Json} (h : IsNested style value) (key : Text)
    (hmore : Nests style.indent depth more after) (hends : EndsNumbers more) :
    Nests style.indent depth
      (newline style depth ++ (writeString style.escapeNonAscii key ++ (": ".toList
        ++ (write style depth value ++ more)))) after := by
  obtain ⟨hvalue, hstands⟩ := h depth
  have hcolon : Nests style.indent depth (": ".toList ++ (write style depth value ++ more))
      after := by
    apply (nests_mark (c := ':') rfl).append _ (endsNumbers_cons rfl _)
    exact (hvalue.append hmore hends).gap rfl (fun hc => absurd hc (by decide))
  apply Nests.newline
  · exact (nests_writeString style.escapeNonAscii key).append hcolon (endsNumbers_cons rfl _)
  · exact ⟨'"', _, rfl, by decide, rfl⟩

theorem nests_writeMembers {style : Style} {members : List (Text × Json)}
    (h : ∀ member ∈ members, IsNested style member.2) (depth : Nat) :
    Nests style.indent depth (writeMembers style depth members) depth := by
  induction members with
  | nil => exact nests_of_notMem tokens?_nil List.not_mem_nil
  | cons member members ih =>
      obtain ⟨key, value⟩ := member
      rw [List.forall_mem_cons] at h
      have hends := endsNumbers_writeMembers style depth members endsNumbers_nil
      rw [List.append_nil] at hends
      rw [writeMembers_cons]
      apply (nests_mark (c := ',') rfl).append _ (endsNumbers_of_newline style depth _)
      exact nests_member h.1 key (ih h.2) hends

/-- The end of a container has a line of its own, at the depth of its start. -/
theorem nests_closing (style : Style) (depth : Nat) {c : Char} {token : Token}
    (h : mark? c = some token) (hdepth : token.deepen (depth + 1) = depth)
    (hspace : isSpace c = false) (hline : lineDepth (depth + 1) c = depth) :
    Nests style.indent (depth + 1) (newline style depth ++ [c]) depth := by
  have hmark : Nests style.indent (depth + 1) [c] (token.deepen (depth + 1)) := nests_mark h
  rw [hdepth] at hmark
  exact hmark.newline ⟨c, [], rfl, hspace, hline⟩

/-- A text on one line that begins visibly, and leaves the depth as it is. -/
theorem isNested_line {style : Style} {value : Json} (line : Text) (tokens : List Token)
    (hwrite : ∀ depth, write style depth value = line) (h : tokens? line = some tokens)
    (hnone : '\n' ∉ line) (hdepth : ∀ depth, depthBehind depth tokens = depth)
    (hstands : ∀ depth, StandsAt depth line depth) : IsNested style value := by
  intro depth
  rw [hwrite]
  have hnests : Nests style.indent depth line (depthBehind depth tokens) := nests_of_notMem h hnone
  rw [hdepth] at hnests
  exact ⟨hnests, hstands depth⟩

theorem standsAt_cons {c : Char} (hspace : isSpace c = false) (hclose : c ≠ ']' ∧ c ≠ '}')
    (depth : Nat) (more : Text) : StandsAt depth (c :: more) depth := by
  refine ⟨c, more, rfl, hspace, ?_⟩
  rw [lineDepth, if_neg]
  rw [not_or]
  exact hclose

/-- **Everything that is written nests.** -/
theorem isNested_of_readable (style : Style) {depth : Nat} {value : Json}
    (h : Readable depth value) : IsNested style value := by
  induction h with
  | null =>
      exact isNested_line "null".toList [.null] (fun _ => rfl)
        (by decide +kernel) (by decide) (fun _ => rfl)
        (fun depth => standsAt_cons (by decide) (by decide) depth _)
  | bool value =>
      cases value with
      | true =>
          exact isNested_line "true".toList [.bool true] (fun _ => rfl)
            (by decide +kernel) (by decide) (fun _ => rfl)
            (fun depth => standsAt_cons (by decide) (by decide) depth _)
      | false =>
          exact isNested_line "false".toList [.bool false] (fun _ => rfl)
            (by decide +kernel) (by decide) (fun _ => rfl)
            (fun depth => standsAt_cons (by decide) (by decide) depth _)
  | @number _ spelling hspelling =>
      have htokens := tokens?_numeral hspelling endsNumbers_nil
      rw [List.append_nil, tokens?_nil] at htokens
      obtain ⟨hne, hall⟩ := hspelling.chars
      refine isNested_line spelling _ (fun _ => rfl) htokens ?_ (fun _ => rfl) ?_
      · intro hmem
        exact absurd (hall _ hmem) (by decide)
      · intro depth
        have hclass : "0123456789.eE+-".toList.all (fun c => c != ']' && c != '}') = true := by
          decide
        cases spelling with
        | nil => exact absurd rfl hne
        | cons c digits =>
            have hc := hall c List.mem_cons_self
            obtain ⟨-, hspace, -⟩ := visible_of_isNumberChar hc
            have hclose := List.all_eq_true.mp hclass c (mem_of_isNumberChar hc)
            rw [Bool.and_eq_true, bne_iff_ne, bne_iff_ne] at hclose
            exact standsAt_cons hspace hclose depth digits
  | string text =>
      intro depth
      exact ⟨nests_writeString _ _, standsAt_cons (by decide) (by decide) depth _⟩
  | @array _ items _ ih =>
      cases items with
      | nil =>
          exact isNested_line ['[', ']'] [.openArray, .closeArray]
            (fun _ => rfl) (by decide +kernel) (by decide) (fun _ => rfl)
            (fun depth => standsAt_cons (by decide) (by decide) depth _)
      | cons item items =>
          intro depth
          rw [List.forall_mem_cons] at ih
          obtain ⟨hitem, hstands⟩ := ih.1 (depth + 1)
          have hclose := nests_closing style depth (c := ']') rfl rfl (by decide) rfl
          have hends := endsNumbers_of_newline style depth [']']
          have hrest := (nests_writeItems ih.2 (depth + 1)).append hclose hends
          rw [write_array_cons]
          refine ⟨?_, standsAt_cons (by decide) (by decide) depth _⟩
          apply (nests_mark (c := '[') rfl).append _ (endsNumbers_of_newline style (depth + 1) _)
          apply Nests.newline _ (hstands.append _)
          exact hitem.append hrest (endsNumbers_writeItems style (depth + 1) items hends)
  | @object _ members _ _ ih =>
      cases members with
      | nil =>
          exact isNested_line ['{', '}'] [.openObject, .closeObject]
            (fun _ => rfl) (by decide +kernel) (by decide) (fun _ => rfl)
            (fun depth => standsAt_cons (by decide) (by decide) depth _)
      | cons member members =>
          intro depth
          obtain ⟨key, value⟩ := member
          rw [List.forall_mem_cons] at ih
          have hclose := nests_closing style depth (c := '}') rfl rfl (by decide) rfl
          have hends := endsNumbers_of_newline style depth ['}']
          have hrest := (nests_writeMembers ih.2 (depth + 1)).append hclose hends
          rw [write_object_cons]
          refine ⟨?_, standsAt_cons (by decide) (by decide) depth _⟩
          apply (nests_mark (c := '{') rfl).append _ (endsNumbers_of_newline style (depth + 1) _)
          exact nests_member ih.1 key hrest
            (endsNumbers_writeMembers style (depth + 1) members hends)

/-! ## The lines of a text that nests -/

/-- What begins a text up to a place behind a line, and has no line feed, begins the line. -/
theorem exists_of_append_eq {opening others line : Text} {following : List Text}
    (hnone : '\n' ∉ opening)
    (h : joinWith ['\n'] (line :: following) = opening ++ others) :
    ∃ rest, line = opening ++ rest := by
  rw [joinWith_cons_eq] at h
  rcases List.append_eq_append_iff.mp h with ⟨inner, rfl, hinner⟩ | ⟨inner, hline, -⟩
  · cases inner with
    | nil => exact ⟨[], by rw [List.append_nil, List.append_nil]⟩
    | cons c inner =>
        -- the opening would go on behind the end of the line
        cases following with
        | nil => cases hinner
        | cons next following =>
            obtain ⟨rfl, -⟩ := List.cons.inj hinner
            exact absurd (by simp) hnone
  · exact ⟨inner, hline⟩

/-- **A line of a text that nests** is indented by its depth, which follows from the lines in front
of it. -/
theorem Nests.line (h : Nests indent 0 text after) (hstands : StandsAt 0 text 0)
    {before following : List Text} {line : Text}
    (hlines : splitAll '\n' text = before ++ line :: following) :
    ∃ tokens c rest, tokens? (joinWith ['\n'] before) = some tokens ∧
      line = List.replicate (indent * lineDepth (depthBehind 0 tokens) c) ' ' ++ c :: rest ∧
      isSpace c = false := by
  have htext : text = joinWith ['\n'] (before ++ line :: following) := by
    rw [← hlines, joinWith_splitAll]
  have hbegins : ∃ tokens, tokens? (joinWith ['\n'] before) = some tokens ∧
      BeginsLine indent (depthBehind 0 tokens) (joinWith ['\n'] (line :: following)) := by
    cases before with
    | nil =>
        obtain ⟨c, more, hmore, hspace, hzero⟩ := hstands
        refine ⟨[], tokens?_nil, c, more, ?_, hspace⟩
        rw [← List.nil_append (line :: following), ← htext, hmore]
        show _ = List.replicate (indent * lineDepth 0 c) ' ' ++ c :: more
        rw [hzero, Nat.mul_zero]
        rfl
    | cons first others =>
        apply h.lines
        rw [htext, joinWith_append (by simp) (by simp), List.append_assoc, List.singleton_append]
  obtain ⟨tokens, htokens, c, more, hrest, hspace⟩ := hbegins
  have hnone : '\n' ∉ List.replicate (indent * lineDepth (depthBehind 0 tokens) c) ' ' ++ [c] := by
    rw [List.mem_append, List.mem_singleton, not_or]
    refine ⟨fun hmem => absurd (List.eq_of_mem_replicate hmem) (by decide), ?_⟩
    rintro rfl
    exact absurd hspace (by decide)
  rw [List.append_cons] at hrest
  obtain ⟨rest, hline⟩ := exists_of_append_eq hnone hrest
  refine ⟨tokens, c, rest, htokens, ?_, hspace⟩
  rw [hline, List.append_assoc, List.singleton_append]

/-- **A value that is written can be cut into lines.** All control characters in it are line feeds,
and cutting it at these gives its lines, of which none is blank and none begins with a number sign.
Each begins with as many spaces as the style asks for at its depth and goes on with something
visible. -/
theorem reformat?_lines {style : Style} {text out : Text} (h : reformat? style text = some out) :
    (∀ c ∈ out, c.toNat < 0x20 → c = '\n') ∧
      lines out = splitAll '\n' out ∧ joinWith ['\n'] (lines out) = out ∧
      (∀ line ∈ lines out, isBlank line = false ∧ Line.isComment line = false) ∧
      ∀ before line following, lines out = before ++ line :: following →
        ∃ tokens c rest, tokens? (joinWith ['\n'] before) = some tokens ∧
          line = List.replicate (style.indent * lineDepth (depthBehind 0 tokens) c) ' ' ++ c :: rest ∧
          isSpace c = false := by
  obtain ⟨value, hvalue, rfl⟩ := Option.map_eq_some_iff.mp h
  have hreadable := readable_of_ofText? hvalue
  obtain ⟨hlaid, hindented⟩ := isLaidOut_of_readable style hreadable 0
  obtain ⟨hnests, hstands⟩ := isNested_of_readable style hreadable 0
  obtain ⟨hlines, hall⟩ := lines_of_laid hlaid hindented
  refine ⟨?_, hlines, ?_, ?_, ?_⟩
  · intro c hc hcontrol
    rcases eq_newline_of_laid hlaid hc with hprintable | hnewline
    · rw [isPrintable, decide_eq_true_eq] at hprintable
      omega
    · exact hnewline
  · rw [hlines, joinWith_splitAll]
  · intro line hline
    exact ⟨(hall line hline).not_blank, (hall line hline).not_comment⟩
  · intro before line following hcut
    exact hnests.line hstands (hlines.symm.trans hcut)

/-- A carriage return and a line separator in a string, and an array with nothing in it. -/
theorem reformat?_lines_separators :
    reformat? ⟨2, false⟩ "\x7b\"a\":[\"\\r\u2028\",[]]\x7d".toList =
        some "\x7b\n  \"a\": [\n    \"\\r\u2028\",\n    []\n  ]\n\x7d".toList ∧
      lines "\x7b\n  \"a\": [\n    \"\\r\u2028\",\n    []\n  ]\n\x7d".toList =
        ["\x7b".toList, "  \"a\": [".toList, "    \"\\r\u2028\",".toList, "    []".toList,
          "  ]".toList, "\x7d".toList] ∧
      ∃ tokens c rest, tokens? "\x7b\n  \"a\": [\n    \"\\r\u2028\",\n    []".toList = some tokens ∧
        "  ]".toList = List.replicate (2 * lineDepth (depthBehind 0 tokens) c) ' ' ++ c :: rest ∧
        isSpace c = false := by
  have htokens : tokens? "\x7b\"a\":[\"\\r\u2028\",[]]\x7d".toList =
      some [.openObject, .string ['a'], .colon, .openArray, .string ['\r', '\u2028'], .comma,
        .openArray, .closeArray, .closeArray, .closeObject] := by
    decide +kernel
  have hout : reformat? ⟨2, false⟩ "\x7b\"a\":[\"\\r\u2028\",[]]\x7d".toList =
      some "\x7b\n  \"a\": [\n    \"\\r\u2028\",\n    []\n  ]\n\x7d".toList := by
    rw [reformat?, ofText?, htokens]
    decide +kernel
  obtain ⟨-, hsplit, -, -, hline⟩ := reformat?_lines hout
  have hlines : lines "\x7b\n  \"a\": [\n    \"\\r\u2028\",\n    []\n  ]\n\x7d".toList =
      ["\x7b".toList, "  \"a\": [".toList, "    \"\\r\u2028\",".toList, "    []".toList,
        "  ]".toList, "\x7d".toList] := by
    rw [hsplit]
    decide +kernel
  exact ⟨hout, hlines, hline ["\x7b".toList, "  \"a\": [".toList, "    \"\\r\u2028\",".toList,
    "    []".toList] _ _ hlines⟩

end PlainRequest.Json
