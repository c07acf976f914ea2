/-
# PlainRequest.Proofs.Http.Received — a server reads the message that is sent

A server takes the bytes of a message apart again: the first line at its spaces, the headers line by line
up to the empty one, and of what follows as much as the headers tell. Nothing that a message holds can be
taken for one of these marks: there is no space in what the URL asks for, no colon in a name, and no line
end in either or in a value. So whatever a prepared request is, a server reads the method, the target and
the headers of its message, the values without the blanks around them.

The body is read as it was sent if what the headers tell of its end is true. It is, unless a block tells
more bytes than there are: then a server waits for bytes that never come, and has nothing.
-/

import PlainRequest.Proofs.Http.Headers
import PlainRequest.Proofs.Text.Utf8

namespace PlainRequest

open Text

/-! ## A server -/

/-- What a server reads of a message. -/
structure Received where
  method : Text
  target : Text
  headers : List (Text × Bytes)
  body : Bytes

namespace Received

open Header

/-- Read the method and the target from the first line. -/
def readFirst? (line : Bytes) : Option (Text × Text) := do
  let text ← ofUtf8? line
  match splitAll ' ' text with
  | [method, target, version] =>
      if version = "HTTP/1.1".toList then some (method, target) else none
  | _ => none

/-- Read a body up to the end that the headers tell: that of the chunks if there is a transfer coding, else
that of a length, and without either there is none. Codings in front of the chunks are not undone, since
a sender does not apply them. -/
def readBody? (headers : List (Text × Text)) (bytes : Bytes) : Option Bytes :=
  match (headers.filter (isCalled transferEncoding)).getLast? with
  | some (_, coding) => if endsInChunks coding then RawResponse.readChunks? bytes else none
  | none =>
      if headers.any (isCalled contentLength) then do
        let length ← toldBy? (natOf? 10) headers
        if bytes.length < length then none else pure (bytes.take length)
      else some []

/-- Read a message. -/
def ofBytes? (bytes : Bytes) : Option Received := do
  let (line, afterLine) ← RawResponse.cutFeed? bytes
  let (method, target) ← readFirst? (RawResponse.dropReturnByte line)
  let (headers, afterHeaders) ← RawResponse.readHeaders? afterLine
  let body ← readBody? (headers.map fun (name, value) => (name, ofUtf8Lossy value)) afterHeaders
  pure { method, target, headers, body }

end Received

/-! ## Lines -/

namespace RawResponse

open WireRequest (newline headerLine)

theorem cutFeed?_append {line : Bytes} (h : 0x0A ∉ line) (rest : Bytes) :
    cutFeed? (line ++ 0x0A :: rest) = some (line, rest) := by
  induction line with
  | nil => rfl
  | cons byte line ih =>
      rw [List.mem_cons, not_or] at h
      rw [List.cons_append, cutFeed?, if_neg (Ne.symm h.1), ih h.2]
      rfl

theorem dropReturnByte_append (line : Bytes) : dropReturnByte (line ++ [0x0D]) = line := by
  rw [dropReturnByte, List.getLast?_concat, if_pos rfl, List.dropLast_concat]

/-- **A line that is written is read back**, whatever follows. -/
theorem cutFeed?_line {line : Text} (h : '\n' ∉ line) (rest : Bytes) :
    cutFeed? (toUtf8 (line ++ newline) ++ rest) = some (toUtf8 line ++ [0x0D], rest) := by
  have hfeed : (0x0A : UInt8) ∉ toUtf8 line ++ [0x0D] := by
    have hline : (0x0A : UInt8) ∉ toUtf8 line := byte_notMem_toUtf8 (d := '\n') (by decide) h
    rw [List.mem_append, not_or]
    exact ⟨hline, by decide⟩
  have hbytes : toUtf8 (line ++ newline) ++ rest = (toUtf8 line ++ [0x0D]) ++ 0x0A :: rest := by
    rw [toUtf8_append, List.append_assoc, List.append_assoc]
    rfl
  rw [hbytes, cutFeed?_append hfeed]

/-! ## Headers -/

/-- The blanks around a text are those around its bytes. -/
theorem trimBytes_toUtf8 (text : Text) : trimBytes (toUtf8 text) = toUtf8 (Header.trimBlanks text) := by
  have hblank : ∀ c, ∀ byte ∈ String.utf8EncodeChar c, isSpaceByte byte = Header.isBlank c := by
    intro c byte hbyte
    have hspace : byte = 0x20 ↔ c = ' ' := byte_eq_iff (d := ' ') hbyte (by decide)
    have htab : byte = 0x09 ↔ c = '\t' := byte_eq_iff (d := '\t') hbyte (by decide)
    simp only [isSpaceByte, Header.isBlank, hspace, htab]
  have hne : ∀ c, String.utf8EncodeChar c ≠ [] := by
    intro c hnil
    obtain ⟨lead, others, hbytes, -⟩ := utf8Start_utf8EncodeChar c
    rw [hnil] at hbytes
    cases hbytes
  have hback : ∀ text : Text, (text.flatMap (List.reverse ∘ String.utf8EncodeChar)).dropWhile
      isSpaceByte = (text.dropWhile Header.isBlank).flatMap (List.reverse ∘ String.utf8EncodeChar) :=
    dropWhile_flatMap (fun c hnil => hne c (List.reverse_eq_nil_iff.mp hnil)) fun c byte hbyte =>
      hblank c byte (List.mem_reverse.mp hbyte)
  have htwice : List.reverse ∘ List.reverse ∘ String.utf8EncodeChar = String.utf8EncodeChar :=
    funext fun c => List.reverse_reverse _
  unfold trimBytes Header.trimBlanks toUtf8
  rw [dropWhile_flatMap hne hblank, List.reverse_flatMap, hback, List.reverse_flatMap, htwice]

theorem readHeader?_headerLine {name : Text} (h : ':' ∉ name) (value : Text) :
    readHeader? (toUtf8 (name ++ ": ".toList ++ value)) =
      some (name, toUtf8 (Header.trimBlanks value)) := by
  have hcolon : ∀ byte ∈ toUtf8 name, decide (byte ≠ 0x3A) = true := by
    intro byte hbyte
    have hnone : (0x3A : UInt8) ∉ toUtf8 name := byte_notMem_toUtf8 (d := ':') (by decide) h
    exact decide_eq_true (ne_of_mem_of_not_mem hbyte hnone)
  have hbytes : toUtf8 (name ++ ": ".toList ++ value) =
      toUtf8 name ++ 0x3A :: toUtf8 ([' '] ++ value) := by
    rw [toUtf8_append, toUtf8_append, toUtf8_append, List.append_assoc]
    rfl
  have htrim : Header.trimBlanks ([' '] ++ value) = Header.trimBlanks value := by
    have hspace : ∀ c ∈ [' '], Header.isBlank c = true := List.forall_mem_singleton.mpr rfl
    have hfront := @Header.trimBlanks_append [' '] [] hspace (by simp) value
    rwa [List.append_nil] at hfront
  rw [hbytes, readHeader?, List.dropWhile_append_of_pos hcolon, List.takeWhile_append_of_pos hcolon,
    List.dropWhile_cons_of_neg (by decide), List.takeWhile_cons_of_neg (by decide), List.append_nil,
    ofUtf8?_toUtf8]
  show some (name, trimBytes (toUtf8 ([' '] ++ value))) = _
  rw [trimBytes_toUtf8, htrim]

/-- Behind a line that is cut off, the header lines end or go on. -/
theorem readHeaders?_eq {bytes line rest : Bytes} (hcut : cutFeed? bytes = some (line, rest)) :
    readHeaders? bytes =
      if (dropReturnByte line).isEmpty then some ([], rest)
      else (readHeader? (dropReturnByte line)).bind fun header =>
        (readHeaders? rest).map fun (headers, after) => (header :: headers, after) := by
  rw [readHeaders?]
  split
  · next hnone =>
      rw [hcut] at hnone
      cases hnone
  · next other more hsome =>
      rw [hcut] at hsome
      obtain ⟨rfl, rfl⟩ := Prod.mk.inj (Option.some.inj hsome)
      cases readHeader? (dropReturnByte line) <;> cases readHeaders? rest <;> rfl

theorem readHeaders?_nil {bytes line rest : Bytes} (hcut : cutFeed? bytes = some (line, rest))
    (hline : dropReturnByte line = []) : readHeaders? bytes = some ([], rest) := by
  rw [readHeaders?_eq hcut, hline]
  rfl

theorem readHeaders?_cons {bytes line rest : Bytes} {header : Text × Bytes}
    (hcut : cutFeed? bytes = some (line, rest)) (hread : readHeader? (dropReturnByte line) = some header) :
    readHeaders? bytes =
      (readHeaders? rest).map fun (headers, after) => (header :: headers, after) := by
  have hne : (dropReturnByte line).isEmpty = false := by
    cases hline : dropReturnByte line with
    | nil =>
        rw [hline] at hread
        cases hread
    | cons byte more => rfl
  rw [readHeaders?_eq hcut, hne, hread]
  rfl

/-- **Headers that are written are read back**, if no name has a colon and none of them a line end. -/
theorem readHeaders?_headerLines {headers : List (Text × Text)}
    (h : ∀ header ∈ headers, ':' ∉ header.1 ∧ '\n' ∉ header.1 ∧ '\n' ∉ header.2) (rest : Bytes) :
    readHeaders? (toUtf8 (headers.flatMap headerLine ++ newline) ++ rest) =
      some (headers.map fun (name, value) => (name, toUtf8 (Header.trimBlanks value)), rest) := by
  induction headers with
  | nil =>
      have hcut := @cutFeed?_line [] (by simp) rest
      exact readHeaders?_nil hcut (dropReturnByte_append [])
  | cons header headers ih =>
      rw [List.forall_mem_cons] at h
      obtain ⟨⟨hcolon, hname, hvalue⟩, hheaders⟩ := h
      have hline : '\n' ∉ header.1 ++ ": ".toList ++ header.2 := by
        simp only [List.mem_append, not_or]
        exact ⟨⟨hname, by decide⟩, hvalue⟩
      have hcut := cutFeed?_line hline (toUtf8 (headers.flatMap headerLine ++ newline) ++ rest)
      have hbytes : toUtf8 ((header :: headers).flatMap headerLine ++ newline) ++ rest =
          toUtf8 (header.1 ++ ": ".toList ++ header.2 ++ newline) ++
            (toUtf8 (headers.flatMap headerLine ++ newline) ++ rest) := by
        rw [List.flatMap_cons, List.append_assoc, toUtf8_append, List.append_assoc]
        rfl
      have hread := readHeader?_headerLine hcolon header.2
      rw [← dropReturnByte_append (toUtf8 (header.1 ++ ": ".toList ++ header.2))] at hread
      rw [hbytes, readHeaders?_cons hcut hread, ih hheaders]
      rfl

/-! ## Chunks -/

/-- Behind the size of a chunk there are as many bytes, and the next chunk; the empty one ends them. -/
theorem readChunks?_eq {bytes line rest : Bytes} (hcut : cutFeed? bytes = some (line, rest)) :
    readChunks? bytes =
      (readSize? (dropReturnByte line)).bind fun size =>
        if size = 0 then some []
        else (cutFeed? (rest.drop size)).bind fun (_, next) =>
          (readChunks? next).map (rest.take size ++ ·) := by
  rw [readChunks?]
  split
  · next hnone =>
      rw [hcut] at hnone
      cases hnone
  · next other more hsome =>
      rw [hcut] at hsome
      obtain ⟨rfl, rfl⟩ := Prod.mk.inj (Option.some.inj hsome)
      refine Option.bind_congr fun size _ => ?_
      split
      · rfl
      split
      · next hnone =>
          rw [hnone]
          rfl
      · next between next hnext =>
          show (readChunks? next).bind (fun others => some (rest.take size ++ others)) = _
          rw [hnext]
          exact Option.map_eq_bind.symm

theorem readChunks?_last {bytes line rest : Bytes} (hcut : cutFeed? bytes = some (line, rest))
    (hsize : readSize? (dropReturnByte line) = some 0) : readChunks? bytes = some [] := by
  rw [readChunks?_eq hcut, hsize]
  rfl

theorem readChunks?_cons {bytes line rest between next : Bytes} {size : Nat}
    (hcut : cutFeed? bytes = some (line, rest))
    (hsize : readSize? (dropReturnByte line) = some size) (hpos : size ≠ 0)
    (hnext : cutFeed? (rest.drop size) = some (between, next)) :
    readChunks? bytes = (readChunks? next).map (rest.take size ++ ·) := by
  rw [readChunks?_eq hcut, hsize, Option.bind_some, if_neg hpos, hnext]
  rfl

theorem isHex_of_mem_sizeText {size : Nat} {c : Char} (h : c ∈ WireRequest.sizeText size) :
    isHex c = true :=
  List.all_eq_true.mp (@digits_map_toDigits 16 Char.toUpper (by decide) (by decide) size).1 c h

theorem readSize?_sizeText (size : Nat) : readSize? (toUtf8 (WireRequest.sizeText size)) = some size := by
  have hkeep : ∀ c ∈ WireRequest.sizeText size, (decide (c ≠ ';') && decide (c ≠ ' ')) = true := by
    intro c hc
    rw [Bool.and_eq_true, decide_eq_true_eq, decide_eq_true_eq]
    constructor <;>
    · rintro rfl
      exact absurd (isHex_of_mem_sizeText hc) (by decide)
  rw [readSize?, ofUtf8?_toUtf8]
  show natOf? 16 ((WireRequest.sizeText size).takeWhile _) = _
  rw [List.takeWhile_eq_self_iff.mpr hkeep]
  exact @natOf?_map_toDigits 16 Char.toUpper (by decide) (by decide) size

/-- **A body that goes in chunks is read back**, and what ends it is seen. -/
theorem readChunks?_inChunks (body : Bytes) : readChunks? (WireRequest.inChunks body) = some body := by
  have hlast : readChunks? (toUtf8 ("0".toList ++ newline ++ newline)) = some [] := by
    have hcut : cutFeed? (toUtf8 ("0".toList ++ newline ++ newline)) =
        some (toUtf8 "0".toList ++ [0x0D], toUtf8 newline) := by
      rw [toUtf8_append]
      exact cutFeed?_line (by decide) _
    refine readChunks?_last hcut ?_
    rw [dropReturnByte_append]
    exact readSize?_sizeText 0
  unfold WireRequest.inChunks
  split
  · next hempty =>
      rw [hlast, List.isEmpty_iff.mp hempty]
  · next hne =>
      have hfeed : '\n' ∉ WireRequest.sizeText body.length := fun hmem =>
        absurd (isHex_of_mem_sizeText hmem) (by decide)
      have hcut := cutFeed?_line hfeed
        (body ++ (toUtf8 newline ++ toUtf8 ("0".toList ++ newline ++ newline)))
      have hbody := @cutFeed?_line [] (by simp) (toUtf8 ("0".toList ++ newline ++ newline))
      have hsize := readSize?_sizeText body.length
      rw [← dropReturnByte_append (toUtf8 _)] at hsize
      have hpos : body.length ≠ 0 := by simpa using hne
      rw [List.append_assoc, List.append_assoc,
        readChunks?_cons hcut hsize hpos (by rw [List.drop_left]; exact hbody), hlast,
        List.take_left]
      simp

end RawResponse

/-! ## Messages -/

namespace WireRequest

open Header

/-- **`message.IsProper`** — nothing in the head of the message can be taken for a mark, and a transfer
coding ends in chunks. -/
structure IsProper (message : WireRequest) : Prop where
  target : ∀ c ∈ target message.url, c ≠ ' ' ∧ c ≠ '\n'
  headers : ∀ header ∈ message.allHeaders, isName header.1 = true ∧ isValue header.2 = true
  coding : ∀ header ∈ (message.headers.filter (isCalled transferEncoding)).getLast?,
    endsInChunks header.2 = true

/-- **`message.IsExact`** — what the headers of the message tell of the end of its body is true. -/
def IsExact (message : WireRequest) : Prop :=
  message.isChunked = true ∨ message.headers.any (isCalled contentLength) = false ∨
    toldBy? (natOf? 10) message.headers = some message.body.length

end WireRequest

namespace Header

theorem notMem_of_isName {name : Text} (h : isName name = true) : ':' ∉ name ∧ '\n' ∉ name := by
  have hall := (Bool.and_eq_true_iff.mp h).2
  constructor <;>
  · intro hmem
    exact absurd (List.all_eq_true.mp hall _ hmem) (by decide)

theorem notMem_of_isValue {value : Text} (h : isValue value = true) : '\n' ∉ value := fun hmem =>
  absurd (List.all_eq_true.mp h _ hmem) (by decide)

end Header

namespace Received

open Header WireRequest

/-- What a server is meant to read of a message. -/
def ofMessage (message : WireRequest) : Received :=
  { method := message.method.name
    target := WireRequest.target message.url
    headers := message.allHeaders.map fun (name, value) => (name, toUtf8 (trimBlanks value))
    body := message.body }

/-! ### The head -/

/-- **The first line is read back.** -/
theorem readFirst?_firstLine {message : WireRequest} (h : message.IsProper) :
    readFirst? (toUtf8 message.firstLine) =
      some (message.method.name, WireRequest.target message.url) := by
  have hmethod : ' ' ∉ message.method.name := by cases message.method <;> decide
  have htarget : ' ' ∉ WireRequest.target message.url := fun hmem => (h.target _ hmem).1 rfl
  have hversion : " HTTP/1.1".toList = ' ' :: "HTTP/1.1".toList := by decide
  have hcut : splitAll ' ' message.firstLine =
      [message.method.name, WireRequest.target message.url, "HTTP/1.1".toList] := by
    rw [firstLine, hversion, List.append_assoc, List.append_assoc, List.singleton_append,
      splitAll_append_cons hmethod, splitAll_append_cons htarget, splitAll_of_notMem (by decide)]
  rw [readFirst?, ofUtf8?_toUtf8]
  show (match splitAll ' ' message.firstLine with | [method, target, version] => _ | _ => _) = _
  rw [hcut]
  rfl

theorem newline_notMem_firstLine {message : WireRequest} (h : message.IsProper) :
    '\n' ∉ message.firstLine := by
  have hmethod : '\n' ∉ message.method.name := by cases message.method <;> decide
  have htarget : '\n' ∉ WireRequest.target message.url := fun hmem => (h.target _ hmem).2 rfl
  simp only [firstLine, List.mem_append, not_or]
  exact ⟨⟨⟨hmethod, by decide⟩, htarget⟩, by decide⟩

/-- What is read of values are the values without the blanks around them. -/
theorem map_ofUtf8Lossy (headers : List (Text × Text)) :
    (headers.map fun (name, value) => (name, toUtf8 (trimBlanks value))).map
        (fun (name, value) => (name, ofUtf8Lossy value)) =
      headers.map fun (name, value) => (name, trimBlanks value) := by
  rw [List.map_map]
  refine List.map_congr_left fun header _ => ?_
  show (header.1, ofUtf8Lossy (toUtf8 (trimBlanks header.2))) = _
  rw [ofUtf8Lossy_toUtf8]

theorem filter_isCalled_map_trimBlanks (name : Text) (headers : List (Text × Text)) :
    (headers.map fun (name, value) => (name, trimBlanks value)).filter (isCalled name) =
      (headers.filter (isCalled name)).map fun (name, value) => (name, trimBlanks value) := by
  rw [List.filter_map]
  rfl

/-- Blanks around values tell nothing of a body. -/
theorem readBody?_trimBlanks (headers : List (Text × Text)) (bytes : Bytes) :
    readBody? (headers.map fun (name, value) => (name, trimBlanks value)) bytes =
      readBody? headers bytes := by
  have hmembers : lengthMembers (headers.map fun (name, value) => (name, trimBlanks value)) =
      lengthMembers headers := by
    rw [lengthMembers, filter_isCalled_map_trimBlanks, List.flatMap_map]
    simp only [members_trimBlanks]
    rfl
  have hany : (headers.map fun (name, value) => (name, trimBlanks value)).any
      (isCalled contentLength) = headers.any (isCalled contentLength) := by
    rw [List.any_map]
    rfl
  unfold readBody? toldBy?
  rw [filter_isCalled_map_trimBlanks, List.getLast?_map, hmembers, hany]
  cases (headers.filter (isCalled transferEncoding)).getLast? with
  | none => rfl
  | some header =>
      show (if endsInChunks (trimBlanks header.2) = true then _ else _) =
        if endsInChunks header.2 = true then _ else _
      rw [endsInChunks, members_trimBlanks, endsInChunks]

/-- A server reads method, target and headers of a proper message, and goes on with the body. -/
theorem ofBytes?_toBytes {message : WireRequest} (h : message.IsProper) :
    ofBytes? message.toBytes =
      (readBody? message.allHeaders message.bodyBytes).map fun body =>
        { ofMessage message with body } := by
  have hheaders : ∀ header ∈ message.allHeaders,
      ':' ∉ header.1 ∧ '\n' ∉ header.1 ∧ '\n' ∉ header.2 := by
    intro header hmem
    obtain ⟨hname, hvalue⟩ := h.headers header hmem
    exact ⟨(notMem_of_isName hname).1, (notMem_of_isName hname).2, notMem_of_isValue hvalue⟩
  have hfirst := RawResponse.cutFeed?_line (newline_notMem_firstLine h)
    (toUtf8 (message.allHeaders.flatMap headerLine ++ newline) ++ message.bodyBytes)
  have hrest := RawResponse.readHeaders?_headerLines hheaders message.bodyBytes
  rw [ofBytes?, toBytes, List.append_assoc, hfirst]
  simp only [Option.bind_eq_bind, Option.bind_some, RawResponse.dropReturnByte_append,
    readFirst?_firstLine h, hrest]
  rw [map_ofUtf8Lossy, readBody?_trimBlanks]
  cases readBody? message.allHeaders message.bodyBytes <;> rfl

/-! ### The body -/

/-- What frames a message tells no transfer coding. -/
theorem filter_transferEncoding_allHeaders (message : WireRequest) :
    message.allHeaders.filter (isCalled transferEncoding) =
      message.headers.filter (isCalled transferEncoding) := by
  rw [allHeaders, List.filter_append,
    filter_isCalled_framingHeaders message (by decide) (by decide) (by decide), List.nil_append]

theorem readBody?_of_isChunked {message : WireRequest} (h : message.IsProper)
    (hchunked : message.isChunked = true) :
    readBody? message.allHeaders message.bodyBytes = some message.body := by
  have hlast := List.getLast?_eq_some_getLast (any_isCalled_eq_true_iff.mp hchunked)
  rw [readBody?, filter_transferEncoding_allHeaders, hlast]
  show (if endsInChunks _ = true then _ else _) = _
  rw [if_pos (h.coding _ hlast), bodyBytes, if_pos hchunked]
  exact RawResponse.readChunks?_inChunks message.body

/-- The length that a block tells is the only one. -/
theorem filter_contentLength_of_any {message : WireRequest}
    (hany : message.headers.any (isCalled contentLength) = true) :
    message.allHeaders.filter (isCalled contentLength) =
      message.headers.filter (isCalled contentLength) := by
  rw [allHeaders, List.filter_append, filter_contentLength_framingHeaders, hany]
  rfl

/-- Where it tells none, the true one is added, unless there is no body. -/
theorem filter_contentLength_of_not_any {message : WireRequest}
    (hany : message.headers.any (isCalled contentLength) = false)
    (hchunked : message.isChunked = false) :
    message.allHeaders.filter (isCalled contentLength) =
      if tellsLength message.method || ! message.body.isEmpty then
        [(contentLength, Nat.toDigits 10 message.body.length)]
      else [] := by
  rw [allHeaders, List.filter_append, filter_contentLength_framingHeaders, hany, hchunked,
    any_isCalled_eq_false_iff.mp hany, List.append_nil]
  rfl

/-- Without a transfer coding the body ends where the lengths tell, if there are any. -/
theorem readBody?_of_not_isChunked {message : WireRequest} (hchunked : message.isChunked = false)
    {lengths : List (Text × Text)}
    (hlengths : message.allHeaders.filter (isCalled contentLength) = lengths) :
    readBody? message.allHeaders message.bodyBytes =
      if lengths.isEmpty then some []
      else (toldBy? (natOf? 10) lengths).bind fun length =>
        if message.body.length < length then none else some (message.body.take length) := by
  have hnone : message.headers.filter (isCalled transferEncoding) = [] :=
    any_isCalled_eq_false_iff.mp hchunked
  have htold : toldBy? (natOf? 10) message.allHeaders = toldBy? (natOf? 10) lengths := by
    rw [← hlengths, toldBy?_filter]
  have hbytes : message.bodyBytes = message.body := by
    rw [bodyBytes, hchunked]
    rfl
  rw [readBody?, filter_transferEncoding_allHeaders, hnone, htold, hbytes]
  cases hany : message.allHeaders.any (isCalled contentLength) with
  | false =>
      rw [← hlengths, any_isCalled_eq_false_iff.mp hany]
      rfl
  | true =>
      have hne := any_isCalled_eq_true_iff.mp hany
      rw [hlengths] at hne
      cases lengths with
      | nil => exact absurd rfl hne
      | cons header rest => rfl

/-- A length that a block tells and a true one that is added are read alike. -/
theorem readBody?_of_told {message : WireRequest} (hchunked : message.isChunked = false)
    {lengths : List (Text × Text)}
    (hlengths : message.allHeaders.filter (isCalled contentLength) = lengths)
    (hne : lengths ≠ []) (htold : toldBy? (natOf? 10) lengths = some message.body.length) :
    readBody? message.allHeaders message.bodyBytes = some message.body := by
  rw [readBody?_of_not_isChunked hchunked hlengths, htold]
  simp [hne]

/-- **Where the headers tell the truth**, the body that was sent is read. -/
theorem readBody?_of_isExact {message : WireRequest} (h : message.IsProper) (hexact : message.IsExact) :
    readBody? message.allHeaders message.bodyBytes = some message.body := by
  cases hchunked : message.isChunked with
  | true => exact readBody?_of_isChunked h hchunked
  | false =>
      cases hany : message.headers.any (isCalled contentLength) with
      | true =>
          have htold : toldBy? (natOf? 10) message.headers = some message.body.length := by
            rcases hexact with hexact | hexact | hexact
            · simp [hchunked] at hexact
            · simp [hany] at hexact
            · exact hexact
          exact readBody?_of_told hchunked (filter_contentLength_of_any hany)
            (any_isCalled_eq_true_iff.mp hany) (by rw [toldBy?_filter, htold])
      | false =>
          have hlengths := filter_contentLength_of_not_any hany hchunked
          split at hlengths
          · exact readBody?_of_told hchunked hlengths (List.cons_ne_nil _ _) (toldBy?_toDigits _)
          · next hnone =>
              have hempty : message.body = [] := by
                simpa using (Bool.or_eq_false_iff.mp (Bool.eq_false_iff.mpr hnone)).2
              rw [readBody?_of_not_isChunked hchunked hlengths, hempty]
              rfl

/-- **What was sent is read**, where the headers tell the truth. -/
theorem ofBytes?_of_isExact {message : WireRequest} (h : message.IsProper) (hexact : message.IsExact) :
    ofBytes? message.toBytes = some (ofMessage message) := by
  rw [ofBytes?_toBytes h, readBody?_of_isExact h hexact]
  rfl

/-- **A server that is told more than it gets**, or nothing that it understands, has nothing. -/
theorem ofBytes?_eq_none {message : WireRequest} (h : message.IsProper)
    (hchunked : message.isChunked = false) (hany : message.headers.any (isCalled contentLength) = true)
    (hmore : ∀ length, toldBy? (natOf? 10) message.headers = some length →
      message.body.length < length) : ofBytes? message.toBytes = none := by
  have hne := any_isCalled_eq_true_iff.mp hany
  rw [ofBytes?_toBytes h, readBody?_of_not_isChunked hchunked (filter_contentLength_of_any hany),
    toldBy?_filter]
  cases htold : toldBy? (natOf? 10) message.headers with
  | none => simp [hne]
  | some length => simp [hne, hmore length htold]

end Received

end PlainRequest
