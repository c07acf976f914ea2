/-
# PlainRequest.Http.Framing — messages and answers as bytes

A message is a line for method and target, a line for each header, an empty line and the body: as it
is, or, if there is a transfer coding, as one chunk behind its size and an empty one that ends it. An
answer has the same form with a status in its first line. Where its body ends is said by its
headers: it comes in chunks that tell their sizes, or it has a length, or it goes on to the end of
the answer. An answer to `HEAD`, and one whose status says so, has no body.
-/

import PlainRequest.Http.Response
import PlainRequest.Http.Wire

namespace PlainRequest

open Text

/-! ## Messages -/

namespace WireRequest

/-- The end of a line. -/
def newline : Text := ['\r', '\n']

/-- What the first line asks for: path and query. -/
def target (url : Url) : Text := url.path.toText ++ url.query.elim [] fun query => ['?'] ++ query

/-- The host and the port, as a header. -/
def hostHeader (url : Url) : Text × Text :=
  ("host".toList, (url.authority.map Authority.hostAndPort).getD [])

/-- Does a message of this method tell the length of its body even if that is empty? -/
def tellsLength : Method → Bool
  | .post | .put | .patch => true
  | _ => false

/-- Does the body go in chunks? -/
def isChunked (message : WireRequest) : Bool :=
  message.headers.any (Header.isCalled Header.transferEncoding)

/-- The headers that say where the message goes and where it ends. -/
def framingHeaders (message : WireRequest) : List (Text × Text) :=
  let isMissing := fun name : Text => ! message.headers.any (Header.isCalled name)
  (if isMissing "host".toList then [hostHeader message.url] else [])
    ++ (if isMissing Header.contentLength && ! message.isChunked
          && (tellsLength message.method || ! message.body.isEmpty) then
        [(Header.contentLength, Nat.toDigits 10 message.body.length)]
      else [])
    ++ [("connection".toList, "close".toList)]

/-- The line of a header. -/
def headerLine (header : Text × Text) : Text := header.1 ++ ": ".toList ++ header.2 ++ newline

/-- All headers, those that frame the message first. -/
def allHeaders (message : WireRequest) : List (Text × Text) :=
  message.framingHeaders ++ message.headers

/-- What the first line says. -/
def firstLine (message : WireRequest) : Text :=
  message.method.name ++ [' '] ++ target message.url ++ " HTTP/1.1".toList

/-- A size in front of a chunk. -/
def sizeText (size : Nat) : Text := (Nat.toDigits 16 size).map Char.toUpper

/-- A body in chunks: itself, if there is any of it, and the empty chunk. -/
def inChunks (body : Bytes) : Bytes :=
  let lastChunk := toUtf8 ("0".toList ++ newline ++ newline)
  if body.isEmpty then lastChunk
  else toUtf8 (sizeText body.length ++ newline) ++ body ++ toUtf8 newline ++ lastChunk

/-- The bytes of the body as it is sent. -/
def bodyBytes (message : WireRequest) : Bytes :=
  if message.isChunked then inChunks message.body else message.body

/-- The bytes of a message. -/
def toBytes (message : WireRequest) : Bytes :=
  toUtf8 (message.firstLine ++ newline) ++ toUtf8 (message.allHeaders.flatMap headerLine ++ newline)
    ++ message.bodyBytes

end WireRequest

/-! ## Answers -/

namespace RawResponse

/-- Cut at the first line feed, which belongs to neither part. -/
def cutFeed? : Bytes → Option (Bytes × Bytes)
  | [] => none
  | byte :: rest =>
      if byte = 0x0A then some ([], rest)
      else (cutFeed? rest).map fun (line, after) => (byte :: line, after)

theorem length_of_cutFeed? {bytes line rest : Bytes} (h : cutFeed? bytes = some (line, rest)) :
    rest.length < bytes.length := by
  induction bytes generalizing line with
  | nil => simp [cutFeed?] at h
  | cons byte bytes ih =>
      simp only [cutFeed?] at h
      split at h
      · simp only [Option.some.injEq, Prod.mk.injEq] at h
        simp [h.2]
      · obtain ⟨⟨l, r⟩, hcut, heq⟩ := Option.map_eq_some_iff.mp h
        simp only [Prod.mk.injEq] at heq
        rw [heq.2] at hcut
        exact Nat.lt_succ_of_lt (ih hcut)

/-- A line without the carriage return at its end. -/
def dropReturnByte (line : Bytes) : Bytes :=
  if line.getLast? = some 0x0D then line.dropLast else line

/-- Is the byte a space or a tab? -/
def isSpaceByte (byte : UInt8) : Bool := byte = 0x20 || byte = 0x09

/-- The bytes without spaces and tabs around them. -/
def trimBytes (bytes : Bytes) : Bytes :=
  ((bytes.dropWhile isSpaceByte).reverse.dropWhile isSpaceByte).reverse

/-- Read a header line. -/
def readHeader? (line : Bytes) : Option (Text × Bytes) :=
  match line.dropWhile (· ≠ 0x3A) with
  | [] => none
  | _ :: value => (ofUtf8? (line.takeWhile (· ≠ 0x3A))).map fun name => (name, trimBytes value)

/-- Read header lines up to the empty line, and give back what follows it. -/
def readHeaders? (bytes : Bytes) : Option (List (Text × Bytes) × Bytes) :=
  match h : cutFeed? bytes with
  | none => none
  | some (line, rest) =>
      if (dropReturnByte line).isEmpty then some ([], rest)
      else do
        have : rest.length < bytes.length := length_of_cutFeed? h
        let header ← readHeader? (dropReturnByte line)
        let (headers, after) ← readHeaders? rest
        pure (header :: headers, after)
termination_by bytes.length

/-- Read the status from the first line. -/
def readStatus? (line : Bytes) : Option Nat := do
  let text ← ofUtf8? line
  match splitAll ' ' text with
  | version :: status :: _ => if startsWith "HTTP/1.".toList version then natOf? 10 status else none
  | _ => none

/-- The value of a header as text in lower case. -/
def valueOf? (name : String) (headers : List (Text × Bytes)) : Option Text :=
  (headers.find? fun header => lower header.1 = name.toList).map fun header =>
    lower (ofUtf8Lossy header.2)

/-- Read the size of a chunk; what follows a semicolon does not count. -/
def readSize? (line : Bytes) : Option Nat := do
  let text ← ofUtf8? line
  natOf? 16 (text.takeWhile fun c => c ≠ ';' && c ≠ ' ')

/-- Read chunks up to the empty one. -/
def readChunks? (bytes : Bytes) : Option Bytes :=
  match h : cutFeed? bytes with
  | none => none
  | some (line, rest) => do
      let size ← readSize? (dropReturnByte line)
      if size = 0 then pure []
      else
        match hnext : cutFeed? (rest.drop size) with
        | none => none
        | some (_, next) => do
            have : next.length < bytes.length := by
              have hrest := length_of_cutFeed? h
              have hdrop := length_of_cutFeed? hnext
              simp only [List.length_drop] at hdrop
              omega
            let others ← readChunks? next
            pure (rest.take size ++ others)
termination_by bytes.length

/-- Has an answer a body? -/
def hasBody (method : Method) (status : Nat) : Bool :=
  method ≠ .head && 200 ≤ status && status ≠ 204 && status ≠ 304

/-- Read a body by what the headers say about it. -/
def readBody? (headers : List (Text × Bytes)) (bytes : Bytes) : Option Bytes :=
  if valueOf? "transfer-encoding" headers = some "chunked".toList then readChunks? bytes
  else
    match valueOf? "content-length" headers with
    | none => some bytes
    | some digits => do
        let length ← natOf? 10 digits
        if bytes.length < length then none else pure (bytes.take length)

/-- Read an answer to a message of this method. -/
def ofBytes? (method : Method) (bytes : Bytes) : Option RawResponse := do
  let (line, afterLine) ← cutFeed? bytes
  let status ← readStatus? (dropReturnByte line)
  let (headers, afterHeaders) ← readHeaders? afterLine
  let body ← if hasBody method status then readBody? headers afterHeaders else some []
  pure { status, headers, body }

end RawResponse

end PlainRequest
