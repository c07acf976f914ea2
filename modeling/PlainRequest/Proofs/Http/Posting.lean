/-
# PlainRequest.Proofs.Http.Posting — what sending a block puts on the wire

A network that writes down the messages it is handed shows all that a server gets to see. Sending a
block hands it at most one message: the one for the prepared request, if there is one. The media type
that this message announces fits its body. A form in parts is announced as that, with its boundary,
and nothing that the block says about a media type goes with it; every other body is announced as the
block says, and a form on one line, where the block says nothing, as what it is.
-/

import PlainRequest.Execution
import PlainRequest.Proofs.Http.Attachments
import PlainRequest.Proofs.Http.Delivery
import PlainRequest.Proofs.Http.MediaType

namespace PlainRequest

open Text

/-! ## Files that only answer -/

/-- The file system that answers as `disk` does, and does nothing else. -/
def Files.still {m : Type → Type} [Monad m] (disk : Files Id) : Files m where
  read path := pure (disk.read path).run
  isPresent path := pure (disk.isPresent path).run

theorem Files.still_read {m : Type → Type} [Monad m] (disk : Files Id) (path : Text) :
    (disk.still (m := m)).read path = pure (disk.read path).run := rfl

section

variable {m : Type → Type} [Monad m] [LawfulMonad m] (disk : Files Id)

/-- **Preparing a request** over such a file system does nothing but prepare it. -/
theorem Prepared.readAttachments_still (fields : List (Text × FieldValue)) :
    readAttachments (m := m) disk.still fields = pure (readAttachments disk fields).run := by
  induction fields with
  | nil => rfl
  | cons field rest ih =>
      obtain ⟨name, value⟩ := field
      cases value with
      | literal text => exact ih
      | content text =>
          rw [readAttachments, ih, pure_bind, readAttachments_content]
      | file path =>
          rw [readAttachments, disk.still_read, pure_bind, ih, readAttachments_file]
          cases (disk.read path).run with
          | error error => rfl
          | ok bytes => exact pure_bind _ _

theorem Prepared.ofRequest_still (request : Request) :
    ofRequest (m := m) disk.still request = pure (ofRequest disk request).run := by
  obtain ⟨method, url, headers, body⟩ := request
  cases body with
  | raw text => cases text <;> simp [ofRequest, payloadOf]
  | form fields =>
      simp only [ofRequest, payloadOf, readAttachments_still, pure_bind]
      rfl

theorem Prepared.ofBlock_still (document block : List Text) :
    Prepared.ofBlock (m := m) disk.still document block =
      pure (Prepared.ofBlock disk document block).run := by
  unfold ofBlock
  cases Request.ofBlock (Table.resolve document block) block with
  | error error => rfl
  | ok request => exact ofRequest_still disk request

end

/-! ## Messages on the wire -/

/-- Computations that write down the messages that they put on the wire. -/
abbrev Posting := StateM (List WireRequest)

/-- The network that gives this boundary and these answers, and writes down what it is handed. -/
def Network.posting (boundary : Text) (answer : WireRequest → Except (List Text) RawResponse) :
    Network Posting where
  freshBoundary := pure boundary
  exchange message := do
    modify (· ++ [message])
    pure (answer message)

/-- **`posted disk boundary answer settings document block`** — the messages that sending a block puts on
the wire, over a file system and a network that gives these answers. -/
def posted (disk : Files Id) (boundary : Text) (answer : WireRequest → Except (List Text) RawResponse)
    (settings : JsonSettings) (document block : List Text) : List WireRequest :=
  (StateT.run (execute disk.still (Network.posting boundary answer).toTransport settings document
    block) []).run.2

section

variable {disk : Files Id} {boundary : Text}
variable {answer : WireRequest → Except (List Text) RawResponse} {settings : JsonSettings}
variable {document block : List Text}

/-- **At most one message is put on the wire**: the one for the prepared request. -/
theorem posted_eq : posted disk boundary answer settings document block =
    match (Prepared.ofBlock disk document block).run with
    | .error _ => []
    | .ok prepared =>
        match WireRequest.ofPrepared boundary prepared with
        | .error _ => []
        | .ok message => [message] := by
  unfold posted execute
  rw [Prepared.ofBlock_still, pure_bind]
  cases (Prepared.ofBlock disk document block).run with
  | error failure => rfl
  | ok prepared =>
      simp only [Network.toTransport, Network.posting, pure_bind]
      cases WireRequest.ofPrepared boundary prepared with
      | error failure => rfl
      | ok message =>
          simp only [bind_assoc, pure_bind]
          cases answer message <;> rfl

theorem mem_posted_iff {message : WireRequest} :
    message ∈ posted disk boundary answer settings document block ↔
      ∃ prepared, (Prepared.ofBlock disk document block).run = .ok prepared ∧
        WireRequest.ofPrepared boundary prepared = .ok message := by
  rw [posted_eq]
  cases (Prepared.ofBlock disk document block).run with
  | error failure => simp
  | ok prepared =>
      cases hmessage : WireRequest.ofPrepared boundary prepared with
      | error failure => simp [hmessage]
      | ok other => simp [hmessage, eq_comm]

end

/-! ## The headers of a message -/

/-- A header announces a media type just if it is called so. -/
theorem announces_eq : announces = Header.isCalled Header.contentType := by
  funext header
  rw [Bool.eq_iff_iff, Header.isCalled_iff]
  exact beq_iff_eq

namespace WireRequest

/-- What frames a message announces no media type. -/
theorem filter_announces_framingHeaders (message : WireRequest) :
    message.framingHeaders.filter announces = [] := by
  rw [announces_eq]
  exact filter_isCalled_framingHeaders message (by decide) (by decide) (by decide)

/-- **The media types on the wire** are those that the message takes over from the block, and then the
one that the payload brings. -/
theorem filter_announces_ofTarget (boundary : Text) (url : Url) (prepared : Prepared) :
    (ofTarget boundary url.splitCredentials.1 url.splitCredentials.2 prepared).headers.filter
        announces =
      ((blockHeaders prepared).filter announces).map (fun header =>
        ("content-type".toList, header.2)) ++ (payloadHeaders boundary prepared).filter announces := by
  rw [announces_eq]
  show (framed _ _ _ _).1.filter _ = _
  rw [filter_isCalled_framed _ _ _ _ (by decide) (by decide),
    filter_isCalled_headersOf boundary url prepared (by decide) (by decide)]
  rfl

/-- Requests that differ in headers which the message does not take over have the same message. -/
theorem ofPrepared_congr (boundary : Text) {prepared other : Prepared}
    (hmethod : prepared.method = other.method) (hurl : prepared.url = other.url)
    (hpayload : prepared.payload = other.payload)
    (hblock : blockHeaders prepared = blockHeaders other)
    (hown : payloadHeaders boundary prepared = payloadHeaders boundary other) :
    ofPrepared boundary prepared = ofPrepared boundary other := by
  unfold ofPrepared check ofTarget headersOf
  rw [hmethod, hurl, hpayload, hblock, hown]

end WireRequest

/-! ## The media type of the body -/

/-- The values that a block gives for a media type, in order. -/
def ownTypes (headers : List (Text × Text)) : List Text := (headers.filter announces).map Prod.snd

/-- **`wireTypes boundary own payload`** — the media types that go with a payload, when the block gives
these of its own. -/
def wireTypes (boundary : Text) (own : List Text) : Payload → List Text
  | .multipart _ => ["multipart/form-data; boundary=".toList ++ boundary]
  | .urlEncoded _ => if own = [] then ["application/x-www-form-urlencoded".toList] else own
  | .text _ | .empty => own

theorem any_isContentType_iff {headers : List (Text × Text)} :
    headers.any Header.isContentType = true ↔ ownTypes headers ≠ [] := by
  rw [ownTypes, ne_eq, List.map_eq_nil_iff, List.filter_eq_nil_iff, List.any_eq_true, announces_eq]
  simp only [Header.isContentType]
  grind

namespace WireRequest

/-- A form in parts takes over the headers that announce nothing. -/
theorem blockHeaders_multipart {prepared : Prepared} {form : Multipart}
    (h : prepared.payload = .multipart form) :
    blockHeaders prepared = prepared.headers.filter (! announces ·) := by
  unfold blockHeaders
  rw [h, announces_eq]
  rfl

/-- **Own headers and those of the payload** together give the media types that go with it. -/
theorem wireTypes_eq (boundary : Text) (prepared : Prepared) :
    ((blockHeaders prepared).filter announces).map (fun header => ("content-type".toList, header.2)) ++
        (payloadHeaders boundary prepared).filter announces =
      (wireTypes boundary (ownTypes prepared.headers) prepared.payload).map fun value =>
        ("content-type".toList, value) := by
  have hown : (prepared.headers.filter announces).map (fun header => ("content-type".toList, header.2)) =
      (ownTypes prepared.headers).map fun value => ("content-type".toList, value) := by
    rw [ownTypes, List.map_map]
    rfl
  obtain ⟨method, url, headers, payload⟩ := prepared
  cases payload with
  | empty => exact (List.append_nil _).trans hown
  | text content => exact (List.append_nil _).trans hown
  | multipart form =>
      have hnone : (blockHeaders ⟨method, url, headers, .multipart form⟩).filter announces = [] := by
        rw [blockHeaders_multipart rfl]
        exact List.filter_eq_nil_iff.mpr fun header hmem => by
          simpa using (List.mem_filter.mp hmem).2
      rw [hnone]
      rfl
  | urlEncoded fields =>
      show (headers.filter announces).map _ ++
        (if headers.any Header.isContentType then [] else _ : List (Text × Text)).filter announces = _
      rw [hown, wireTypes]
      by_cases hnone : ownTypes headers = []
      · rw [if_neg (fun hany => any_isContentType_iff.mp hany hnone), if_pos hnone, hnone]
        rfl
      · rw [if_pos (any_isContentType_iff.mpr hnone), if_neg hnone, List.filter_nil,
          List.append_nil]

/-- What a block says about a media type does not reach a form in parts. -/
theorem ofPrepared_multipart (boundary : Text) (prepared : Prepared) {form : Multipart}
    (h : prepared.payload = .multipart form) :
    ofPrepared boundary { prepared with headers := prepared.headers.filter (! announces ·) } =
      ofPrepared boundary prepared := by
  have hblock :
      blockHeaders { prepared with headers := prepared.headers.filter (! announces ·) } =
        (prepared.headers.filter (! announces ·)).filter (! announces ·) := blockHeaders_multipart h
  refine ofPrepared_congr boundary ?_ ?_ ?_ ?_ ?_
  · rfl
  · rfl
  · rfl
  · rw [hblock, blockHeaders_multipart h, List.filter_filter]
    simp only [Bool.and_self]
  · unfold payloadHeaders
    rw [h]

end WireRequest

/-- A prepared block describes a request, and has the payload for its body. -/
theorem Prepared.exists_of_ofBlock {disk : Files Id} {document block : List Text} {prepared : Prepared}
    (h : (Prepared.ofBlock disk document block).run = .ok prepared) :
    ∃ request payload, Request.ofBlock (Table.resolve document block) block = .ok request ∧
      (payloadOf disk request.body).run = .ok payload ∧
      prepared = ⟨request.method, request.url, request.headers, payload⟩ := by
  unfold ofBlock at h
  cases hrequest : Request.ofBlock (Table.resolve document block) block with
  | error error =>
      rw [hrequest] at h
      cases h
  | ok request =>
      rw [hrequest] at h
      replace h : (ofRequest disk request).run = .ok prepared := h
      rw [ofRequest_eq] at h
      obtain ⟨payload, hpayload, rfl⟩ := map_eq_ok_iff.mp h
      exact ⟨request, payload, rfl, hpayload, rfl⟩

/-- **What is posted arrives whole or not at all.** A server that reads the bytes of a message gets the
method, the headers and the body of the message, if what the headers tell of the end of the body is true,
and else it gets no message. -/
theorem posted_received {disk : Files Id} {boundary : Text}
    {answer : WireRequest → Except (List Text) RawResponse} {settings : JsonSettings}
    {document block : List Text} (hboundary : Header.isValue boundary = true) :
    ∀ message ∈ posted disk boundary answer settings document block,
      (message.IsExact → Received.ofBytes? message.toBytes = some (.ofMessage message)) ∧
        (¬ message.IsExact → Received.ofBytes? message.toBytes = none) := by
  intro message hmessage
  obtain ⟨prepared, -, hwire⟩ := mem_posted_iff.mp hmessage
  exact WireRequest.received_of_ofPrepared hwire fun _ _ => hboundary

/-- **The media type on the wire fits the body.** Whatever block is sent, over whatever files, the
headers for a media type in the message are the ones that go with its payload: for a form in parts just
one, with the boundary, and the message is the one that there is without those of the block; for a form
on one line those of the block, in order, or the usual one if it has none; and for a body of text or
none those of the block. -/
theorem posted_mediaType (disk : Files Id) (boundary : Text)
    (answer : WireRequest → Except (List Text) RawResponse) (settings : JsonSettings)
    (document block : List Text) :
    ∀ message ∈ posted disk boundary answer settings document block, ∃ request payload,
      Request.ofBlock (Table.resolve document block) block = .ok request ∧
      (Prepared.payloadOf disk request.body).run = .ok payload ∧
      (message.framingHeaders ++ message.headers).filter announces =
        (wireTypes boundary (ownTypes request.headers) payload).map (fun value =>
          ("content-type".toList, value)) ∧
      ∀ form, payload = .multipart form →
        WireRequest.ofPrepared boundary
          ⟨request.method, request.url, request.headers.filter (! announces ·), payload⟩ =
          .ok message := by
  intro message hmessage
  obtain ⟨prepared, hprepared, hwire⟩ := mem_posted_iff.mp hmessage
  obtain ⟨request, payload, hrequest, hpayload, rfl⟩ := Prepared.exists_of_ofBlock hprepared
  refine ⟨request, payload, hrequest, hpayload, ?_, ?_⟩
  · obtain ⟨url, -, -, rfl⟩ := WireRequest.ofPrepared_eq_ok_iff.mp hwire
    rw [List.filter_append, WireRequest.filter_announces_framingHeaders, List.nil_append]
    exact (WireRequest.filter_announces_ofTarget boundary url _).trans
      (WireRequest.wireTypes_eq boundary _)
  · rintro form rfl
    rw [← hwire]
    exact WireRequest.ofPrepared_multipart boundary
      ⟨request.method, request.url, request.headers, .multipart form⟩ rfl

/-- Two media types of a block, in two spellings: a form in parts is sent with neither, and a form on one
line with both. -/
theorem posted_mediaType_spellings :
    let disk : Files Id := ⟨fun _ => .error .notFound, fun _ => false⟩
    let block := fun field : Text => ["POST http://h/".toList, "content-type: a".toList,
      "CONTENT-Type: b".toList, field]
    let sent := fun field => posted disk ['B'] (fun _ => .error []) {} [] (block field)
    (∃ message ∈ sent "x=!content(y)".toList,
      (message.framingHeaders ++ message.headers).filter announces =
        [("content-type".toList, "multipart/form-data; boundary=B".toList)]) ∧
    ∃ message ∈ sent "x=y".toList, (message.framingHeaders ++ message.headers).filter announces =
      [("content-type".toList, ['a']), ("content-type".toList, ['b'])] := by
  intro disk block sent
  let headers : List (Text × Text) := [("content-type".toList, ['a']), ("CONTENT-Type".toList, ['b'])]
  constructor
  · obtain ⟨message, hmem⟩ := List.exists_mem_of_ne_nil (sent "x=!content(y)".toList) (by decide +kernel)
    obtain ⟨request, payload, hrequest, hpayload, htypes, -⟩ :=
      posted_mediaType disk ['B'] (fun _ => .error []) {} [] _ message hmem
    have hread : (Request.ofBlock (Table.resolve [] (block "x=!content(y)".toList))
        (block "x=!content(y)".toList)).toOption =
        some ⟨.post, "http://h/".toList, headers, .form [(['x'], .content ['y'])]⟩ := by
      decide +kernel
    rw [hrequest] at hread
    obtain rfl := Option.some.inj hread
    cases hpayload
    exact ⟨message, hmem, htypes⟩
  · obtain ⟨message, hmem⟩ := List.exists_mem_of_ne_nil (sent "x=y".toList) (by decide +kernel)
    obtain ⟨request, payload, hrequest, hpayload, htypes, -⟩ :=
      posted_mediaType disk ['B'] (fun _ => .error []) {} [] _ message hmem
    have hread : (Request.ofBlock (Table.resolve [] (block "x=y".toList))
        (block "x=y".toList)).toOption =
        some ⟨.post, "http://h/".toList, headers, .form [(['x'], .literal ['y'])]⟩ := by
      decide +kernel
    rw [hrequest] at hread
    obtain rfl := Option.some.inj hread
    cases hpayload
    exact ⟨message, hmem, htypes⟩

end PlainRequest
