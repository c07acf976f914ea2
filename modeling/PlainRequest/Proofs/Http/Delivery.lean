/-
# PlainRequest.Proofs.Http.Delivery — a prepared request arrives whole or not at all

Whatever a request is prepared from, the head of its message is such that a server reads it: the names
and values of headers have been checked, those that are added are harmless, and the URL has no space and
no control character. What the headers tell of the end of the body is kept to when it is sent, and they
never tell less than is sent. So a server either gets all of the body, or, where a block tells more bytes
than there are or nothing that can be understood, it gets no message at all; it never takes a part of a
body for all of it.
-/

import PlainRequest.Proofs.Http.Received

namespace PlainRequest

open Text

/-! ## Proper headers -/

namespace Header

/-- **`IsProper header`** — its name and its value are as they must be. -/
def IsProper (header : Text × Text) : Prop := isName header.1 = true ∧ isValue header.2 = true

theorem isProper_mk {name value : Text} (hname : isName name = true) (hvalue : isValue value = true) :
    IsProper (name, value) := ⟨hname, hvalue⟩

theorem isValue_append {value more : Text} (h : isValue value = true) (hmore : isValue more = true) :
    isValue (value ++ more) = true := by
  rw [isValue, List.all_append, Bool.and_eq_true]
  exact ⟨h, hmore⟩

/-- A letter `A` to `Z` becomes a letter, and all else stays. -/
theorem toLower_eq_or_isAlphanum (c : Char) : c.toLower = c ∨ c.toLower.isAlphanum = true := by
  by_cases hupper : c.val ≥ 'A'.val ∧ c.val ≤ 'Z'.val
  · have hlow : 65 ≤ c.toNat := hupper.1
    have hhigh : c.toNat ≤ 90 := hupper.2
    have hall : ∀ n : Fin 26, (Char.ofNat (65 + n)).toLower.isAlphanum = true := by decide
    have hletter := hall ⟨c.toNat - 65, by omega⟩
    rw [show 65 + (c.toNat - 65) = c.toNat by omega, Char.ofNat_toNat] at hletter
    exact .inr hletter
  · exact .inl (dif_neg hupper)

/-- A name stays one in small letters. -/
theorem isName_lower {name : Text} (h : isName name = true) : isName (lower name) = true := by
  simp only [isName, Bool.and_eq_true, List.all_eq_true, decide_eq_true_eq] at h ⊢
  obtain ⟨⟨hne, hlength⟩, hall⟩ := h
  refine ⟨⟨by simpa [lower] using hne, by simpa [lower] using hlength⟩, ?_⟩
  intro lowered hlowered
  obtain ⟨c, hc, rfl⟩ := List.mem_map.mp hlowered
  rcases toLower_eq_or_isAlphanum c with hsame | hletter
  · rw [hsame]
    exact hall c hc
  · rw [hletter, Bool.true_or]

/-- Headers that pass the check are proper. -/
theorem forall_isProper_of_check {headers : List (Text × Text)} (h : check headers = .ok ()) :
    ∀ header ∈ headers, IsProper header := by
  induction headers with
  | nil => simp
  | cons header rest ih =>
      obtain ⟨name, value⟩ := header
      rw [check] at h
      split at h
      · cases h
      next hname =>
      split at h
      · cases h
      next hvalue =>
      rw [List.forall_mem_cons]
      exact ⟨⟨by simpa using hname, by simpa using hvalue⟩, ih h⟩

theorem isValue_of_subset {value more : Text} (h : value ⊆ more) (hmore : isValue more = true) :
    isValue value = true :=
  List.all_eq_true.mpr fun c hc => List.all_eq_true.mp hmore c (h hc)

theorem isValue_toDigits (n : Nat) : isValue (Nat.toDigits 10 n) = true :=
  @isValue_of_subset _ "0123456789".toList
    (fun _ hc => mem_of_isDecimal (isDecimal_of_mem_toDigits hc)) (by decide)

theorem isValue_base64Group (n : Nat) : isValue (base64Group n) = true := by
  have hletter : ∀ n, base64Letter n ∈ '=' :: base64Letters := by
    intro n
    rw [base64Letter, List.getD_eq_getElem?_getD]
    cases hget : base64Letters[n]? with
    | none => exact List.mem_cons_self
    | some c => exact List.mem_cons_of_mem _ (List.mem_of_getElem? hget)
  refine @isValue_of_subset _ ('=' :: base64Letters) ?_ (by decide)
  intro c hc
  simp only [base64Group, List.mem_cons, List.not_mem_nil, or_false] at hc
  rcases hc with rfl | rfl | rfl | rfl <;> exact hletter _

theorem isValue_base64 (bytes : Bytes) : isValue (base64 bytes) = true := by
  fun_induction base64 with
  | case1 => rfl
  | case2 a =>
      exact isValue_append (isValue_of_subset (List.take_subset _ _) (isValue_base64Group _))
        (by decide)
  | case3 a b =>
      exact isValue_append (isValue_of_subset (List.take_subset _ _) (isValue_base64Group _))
        (by decide)
  | case4 a b c rest ih => exact isValue_append (isValue_base64Group _) ih

theorem isProper_authorization (userName : Text) (password : Option Text) :
    IsProper (authorization userName password) :=
  isProper_mk (by decide) (isValue_append (by decide) (isValue_base64 _))

theorem isProper_completeCoding {header : Text × Text} (h : IsProper header) :
    IsProper (header.1, completeCoding header.2) := by
  refine ⟨h.1, ?_⟩
  unfold completeCoding
  split
  · exact h.2
  · exact isValue_append (isValue_append h.2 (by decide)) (by decide)

theorem forall_isProper_completeCodings {headers : List (Text × Text)}
    (h : ∀ header ∈ headers, IsProper header) : ∀ header ∈ completeCodings headers, IsProper header := by
  induction headers with
  | nil => exact h
  | cons header rest ih =>
      rw [List.forall_mem_cons] at h
      rw [completeCodings]
      split
      · rw [List.forall_mem_cons]
        exact ⟨isProper_completeCoding h.1, h.2⟩
      · rw [List.forall_mem_cons]
        exact ⟨h.1, ih h.2⟩

end Header

namespace WireRequest

open Header

/-- **What is said about the end of a body** is said properly, and a transfer coding ends in chunks. -/
theorem forall_isProper_framed (isStream : Bool) (method : Method) {headers : List (Text × Text)}
    (body : Bytes) (h : ∀ header ∈ headers, Header.IsProper header) :
    ∀ header ∈ (framed isStream method headers body).1, Header.IsProper header := by
  have hfilter : ∀ p, ∀ header ∈ headers.filter p, Header.IsProper header := fun p header hmem =>
    h header (List.mem_filter.mp hmem).1
  unfold framed
  dsimp only
  split
  · exact hfilter _
  split
  · apply forall_isProper_completeCodings
    split
    · exact hfilter _
    · exact h
  split
  · exact h
  split
  · exact hfilter _
  split
  · exact h
  · rw [List.forall_mem_append, List.forall_mem_singleton]
    exact ⟨h, isProper_mk (by decide) (by decide)⟩

theorem endsInChunks_framed (isStream : Bool) (method : Method) (headers : List (Text × Text))
    (body : Bytes) {header : Text × Text}
    (h : header ∈ ((framed isStream method headers body).1.filter
      (isCalled transferEncoding)).getLast?) : endsInChunks header.2 = true := by
  revert h
  unfold framed
  dsimp only
  split
  · intro h
    have hnone : (headers.filter (! isCalled transferEncoding ·)).filter (isCalled transferEncoding) =
        [] := List.filter_eq_nil_iff.mpr fun header hmem => by simpa using (List.mem_filter.mp hmem).2
    rw [hnone] at h
    cases h
  split
  · exact endsInChunks_of_mem_completeCodings
  next hnone =>
  have hfilter : headers.filter (isCalled transferEncoding) = [] :=
    any_isCalled_eq_false_iff.mp (Bool.eq_false_iff.mpr hnone)
  split
  · rw [hfilter]
    nofun
  split
  · rw [filter_isCalled_filter_not (by decide), hfilter]
    nofun
  split
  · rw [hfilter]
    nofun
  · intro h
    rw [List.filter_append, hfilter] at h
    obtain rfl := Option.some.inj h
    decide

end WireRequest

/-! ## The head of a message -/

namespace Url

theorem mem_toText_of_mem_target {url : Url} {c : Char} (h : c ∈ WireRequest.target url) :
    c ∈ url.toText := by
  rw [WireRequest.target, List.mem_append] at h
  simp only [toText, toTextWithoutFragment, List.mem_append]
  exact .inl (h.imp_left .inr)

theorem mem_toText_of_mem_hostAndPort {url : Url} {authority : Authority}
    (hauthority : url.authority = some authority) {c : Char} (h : c ∈ authority.hostAndPort) :
    c ∈ url.toText := by
  have hbefore : c ∈ url.beforePath := by
    rw [beforePath, hauthority]
    exact List.mem_append_right _ (List.mem_append_right _ h)
  simp only [toText, toTextWithoutFragment, List.mem_append]
  exact .inl (.inl (.inl (.inr hbefore)))

/-- A URL that fits a message has no space, no control character and no line end. -/
theorem isSendableChar_of_fitsMessage {url : Url} (h : url.fitsMessage = true) :
    ∀ c ∈ url.toText, isSendableChar c = true := by
  rw [fitsMessage, Bool.and_eq_true, Bool.and_eq_true] at h
  exact List.all_eq_true.mp h.1.2

theorem isValueChar_of_isSendableChar {c : Char} (h : isSendableChar c = true) :
    (' ' ≤ c && c ≠ '\x7f' || c = '\t') = true := by
  simp only [isSendableChar, Bool.and_eq_true, decide_eq_true_eq] at h
  have hspace : ' ' ≤ c := Char.le_trans (by decide) h.1
  simp [hspace, h.2]

end Url

namespace WireRequest

open Header

/-- Where nothing is thrown, the next step is taken. -/
theorem of_throw_if {fault : SendFault} {isBad : Bool} {next : Unit → Except SendFault Unit}
    (h : (if isBad = true then throw fault >>= next else next ()) = .ok ()) :
    isBad = false ∧ next () = .ok () := by
  cases isBad with
  | false => exact ⟨rfl, h⟩
  | true => cases h

/-- What a message to a URL needs, it has. -/
theorem of_check {url target : Url} {prepared : Prepared} (h : check url target prepared = .ok ()) :
    (∀ header ∈ blockHeaders prepared, Header.IsProper header) ∧ target.fitsMessage = true := by
  unfold check at h
  obtain ⟨-, hafterHost⟩ := of_throw_if h
  obtain ⟨_, hheaders, hafterHeaders⟩ := bind_eq_ok_iff.mp hafterHost
  obtain ⟨-, hafterScheme⟩ := of_throw_if hafterHeaders
  refine ⟨forall_isProper_of_check hheaders, ?_⟩
  cases hfits : target.fitsMessage with
  | false =>
      simp only [hfits] at hafterScheme
      cases hafterScheme
  | true => rfl

theorem forall_isProper_withAccept {headers : List (Text × Text)}
    (h : ∀ header ∈ headers, Header.IsProper header) :
    ∀ header ∈ withAccept headers, Header.IsProper header := by
  unfold withAccept
  split
  · exact h
  · rw [List.forall_mem_append, List.forall_mem_singleton]
    exact ⟨h, isProper_mk (by decide) (by decide)⟩

/-- **All headers of a message are proper**, if its boundary is. -/
theorem forall_isProper_headersOf {boundary : Text} {prepared : Prepared} (url : Url)
    (hblock : ∀ header ∈ blockHeaders prepared, Header.IsProper header)
    (hboundary : ∀ form, prepared.payload = .multipart form → isValue boundary = true) :
    ∀ header ∈ headersOf boundary url.splitCredentials.2 prepared, Header.IsProper header := by
  have hcredentials : ∀ header ∈ url.splitCredentials.2, Header.IsProper header := by
    unfold Url.splitCredentials
    split
    · nofun
    · exact List.forall_mem_singleton.mpr (isProper_authorization _ _)
  have hpayload : ∀ header ∈ payloadHeaders boundary prepared, Header.IsProper header := by
    unfold payloadHeaders
    split
    · next form hform =>
        rw [List.forall_mem_cons, List.forall_mem_singleton]
        exact ⟨isProper_mk (by decide) (isValue_append (by decide) (hboundary form hform)),
          isProper_mk (by decide) (isValue_toDigits _)⟩
    · split
      · nofun
      · exact List.forall_mem_singleton.mpr (isProper_mk (by decide) (by decide))
    · nofun
  apply forall_isProper_withAccept
  rw [List.forall_mem_append, List.forall_mem_append]
  refine ⟨⟨hcredentials, List.forall_mem_map.mpr fun header hmem => ?_⟩, hpayload⟩
  exact isProper_mk (isName_lower (hblock header hmem).1) (hblock header hmem).2

theorem forall_isProper_framingHeaders {message : WireRequest}
    (h : ∀ c ∈ message.url.toText, Url.isSendableChar c = true) :
    ∀ header ∈ message.framingHeaders, Header.IsProper header := by
  have hhost : isValue (hostHeader message.url).2 = true := by
    unfold hostHeader
    cases hauthority : message.url.authority with
    | none => decide
    | some authority =>
        exact List.all_eq_true.mpr fun c hc => Url.isValueChar_of_isSendableChar
          (h c (Url.mem_toText_of_mem_hostAndPort hauthority hc))
  intro header hmem
  obtain rfl | rfl | rfl := of_mem_framingHeaders hmem
  · exact isProper_mk (by decide) hhost
  · exact isProper_mk (by decide) (isValue_toDigits _)
  · exact isProper_mk (by decide) (by decide)

/-- **The message for a prepared request is proper**, if its boundary is. -/
theorem isProper_of_ofPrepared {boundary : Text} {prepared : Prepared} {message : WireRequest}
    (h : ofPrepared boundary prepared = .ok message)
    (hboundary : ∀ form, prepared.payload = .multipart form → isValue boundary = true) :
    message.IsProper := by
  obtain ⟨url, -, hcheck, rfl⟩ := ofPrepared_eq_ok_iff.mp h
  obtain ⟨hblock, hfits⟩ := of_check hcheck
  have hurl := Url.isSendableChar_of_fitsMessage hfits
  refine ⟨?_, ?_, ?_⟩
  · intro c hc
    have hsendable := hurl c (Url.mem_toText_of_mem_target hc)
    constructor <;>
    · rintro rfl
      exact absurd hsendable (by decide)
  · exact List.forall_mem_append.mpr ⟨forall_isProper_framingHeaders hurl,
      forall_isProper_framed _ _ _ (forall_isProper_headersOf url hblock hboundary)⟩
  · exact fun header hmem => endsInChunks_framed _ _ _ _ hmem

/-! ## The end of the body -/

/-- The number that a sender is told is told to every reader. -/
theorem toldBy?_of_toldLength? {headers : List (Text × Text)} {length : Nat}
    (h : toldLength? headers = some length) : toldBy? (natOf? 10) headers = some length := by
  refine toldBy?_mono ?_ h
  intro digits number hnumber
  obtain ⟨value, hvalue, hsame⟩ := Option.bind_eq_some_iff.mp hnumber
  split at hsame
  · rw [hvalue]
    exact hsame
  · cases hsame

theorem toldBy?_of_not_any {read : Text → Option Nat} {headers : List (Text × Text)}
    (h : headers.any (isCalled contentLength) = false) : toldBy? read headers = none := by
  rw [toldBy?, lengthMembers, any_isCalled_eq_false_iff.mp h]
  rfl

/-- A transfer coding stays, whatever becomes of the lengths beside it. -/
theorem any_transferEncoding_of_coding {headers : List (Text × Text)}
    (h : headers.any (isCalled transferEncoding) = true) :
    (completeCodings (if (toldLength? headers).isSome then
      headers.filter (! isCalled contentLength ·) else headers)).any (isCalled transferEncoding) =
      true := by
  rw [any_isCalled_completeCodings]
  split
  · rw [any_isCalled_eq_true_iff, filter_isCalled_filter_not (by decide)]
    exact any_isCalled_eq_true_iff.mp h
  · exact h

/-- **No header tells less than is sent**, unless the body goes in chunks. -/
theorem length_framed_le (isStream : Bool) (method : Method) {headers : List (Text × Text)}
    {body : Bytes} {length : Nat}
    (hchunked : (framed isStream method headers body).1.any (isCalled transferEncoding) = false)
    (htold : toldBy? (natOf? 10) (framed isStream method headers body).1 = some length) :
    (framed isStream method headers body).2.length ≤ length := by
  revert hchunked htold
  unfold framed
  dsimp only
  split
  · exact fun _ _ => Nat.zero_le _
  split
  · next hany =>
      intro hchunked
      rw [any_transferEncoding_of_coding hany] at hchunked
      cases hchunked
  split
  · next told hsender =>
      intro _ htold
      rw [toldBy?_of_toldLength? hsender] at htold
      obtain rfl := Option.some.inj htold
      exact List.length_take_le _ _
  split
  · intro _ htold
    rw [toldBy?_of_not_any (by simp)] at htold
    cases htold
  split
  · exact fun _ _ => Nat.zero_le _
  · intro hchunked
    rw [List.any_append, Bool.or_eq_false_iff] at hchunked
    exact absurd hchunked.2 (by decide)

/-- **A message arrives whole or not at all.** Whatever a request is prepared from, a server that reads the
bytes of its message either gets what was sent, or nothing; and the one or the other as the headers tell
the truth about the end of the body or do not. -/
theorem received_of_ofPrepared {boundary : Text} {prepared : Prepared} {message : WireRequest}
    (h : ofPrepared boundary prepared = .ok message)
    (hboundary : ∀ form, prepared.payload = .multipart form → isValue boundary = true) :
    (message.IsExact → Received.ofBytes? message.toBytes = some (.ofMessage message)) ∧
      (¬ message.IsExact → Received.ofBytes? message.toBytes = none) := by
  have hproper := isProper_of_ofPrepared h hboundary
  refine ⟨Received.ofBytes?_of_isExact hproper, ?_⟩
  intro hfalse
  simp only [IsExact, not_or, Bool.not_eq_true, Bool.not_eq_false] at hfalse
  obtain ⟨hchunked, hany, htold⟩ := hfalse
  refine Received.ofBytes?_eq_none hproper hchunked hany fun length hlength => ?_
  -- never less is told than is sent, and here it is not as much
  have hle : message.body.length ≤ length := by
    obtain ⟨url, -, -, rfl⟩ := ofPrepared_eq_ok_iff.mp h
    exact length_framed_le _ _ hchunked hlength
  refine Nat.lt_of_le_of_ne hle ?_
  rintro rfl
  exact htold hlength

/-! ## Bodies that are no streams -/

/-- **`ownLength? headers`** — the length that is kept to because headers tell it: none next to a transfer
coding. -/
def ownLength? (headers : List (Text × Text)) : Option Nat :=
  if headers.any (isCalled transferEncoding) then none else toldLength? headers

/-- **`cutTo length? body`** — what is sent of a body when no more than a length may be. -/
def cutTo : Option Nat → Bytes → Bytes
  | none, body => body
  | some length, body => body.take length

theorem cutTo_of_le {length? : Option Nat} {body : Bytes}
    (h : ∀ length ∈ length?, body.length ≤ length) : cutTo length? body = body := by
  cases length? with
  | none => rfl
  | some length => exact List.take_of_length_le (h length rfl)

theorem cutTo_nil (length? : Option Nat) : cutTo length? [] = [] := by
  cases length? with
  | none => rfl
  | some length => exact List.take_nil

/-- **As much of the body is sent** as its headers tell, and all of it if they tell nothing. -/
theorem framed_body (method : Method) (headers : List (Text × Text)) (body : Bytes) :
    (framed false method headers body).2 = cutTo (ownLength? headers) body := by
  unfold framed ownLength?
  dsimp only
  split
  · next hempty => rw [List.isEmpty_iff.mp hempty, cutTo_nil]
  split
  · rfl
  · cases toldLength? headers <;> rfl

/-- **What the headers tell is true**, unless they tell more than there is of the body. -/
theorem isExact_ofTarget {boundary : Text} {target : Url} {credentials : List (Text × Text)}
    {prepared : Prepared} (hstream : isStream prepared.payload = false)
    (hbody : bodyOf boundary prepared.payload ≠ [])
    (hlength : ∀ length ∈ ownLength? (headersOf boundary credentials prepared),
      length ≤ (bodyOf boundary prepared.payload).length) :
    (ofTarget boundary target credentials prepared).IsExact := by
  unfold IsExact isChunked ofTarget framed ownLength? at *
  dsimp only at *
  generalize headersOf boundary credentials prepared = headers at hlength
  generalize bodyOf boundary prepared.payload = body at hbody hlength
  rw [if_neg (by simpa using hbody), hstream]
  cases hcoding : headers.any (isCalled transferEncoding) with
  | true =>
      left
      rw [if_pos rfl]
      exact any_transferEncoding_of_coding hcoding
  | false =>
      rw [hcoding] at hlength
      rw [if_neg (by decide)]
      right
      cases htold : toldLength? headers with
      | none => exact .inl (by simp)
      | some length =>
          right
          rw [toldBy?_of_toldLength? htold, List.length_take_of_le (hlength length htold)]

/-- **The length that a message keeps to** is the one that the block tells. -/
theorem ownLength?_headersOf (boundary : Text) (url : Url) {prepared : Prepared}
    (hstream : isStream prepared.payload = false) :
    ownLength? (headersOf boundary url.splitCredentials.2 prepared) = ownLength? prepared.headers := by
  have hlengths : lengthMembers (headersOf boundary url.splitCredentials.2 prepared) =
      lengthMembers prepared.headers := by
    rw [lengthMembers, filter_isCalled_headersOf_of_not_isStream boundary url hstream (by decide)
      (by decide) (by decide), List.flatMap_map]
    rfl
  have hcoding : (headersOf boundary url.splitCredentials.2 prepared).any (isCalled transferEncoding) =
      prepared.headers.any (isCalled transferEncoding) := by
    rw [Bool.eq_iff_iff, any_isCalled_eq_true_iff, any_isCalled_eq_true_iff,
      filter_isCalled_headersOf_of_not_isStream boundary url hstream (by decide) (by decide) (by decide),
      ne_eq, List.map_eq_nil_iff]
  rw [ownLength?, hcoding, toldLength?, toldBy?, hlengths]
  rfl

section

variable {boundary : Text} {prepared : Prepared} {message : WireRequest}

/-- **The body of a message** is as much of the payload as the block allows. -/
theorem body_of_ofPrepared (h : ofPrepared boundary prepared = .ok message)
    (hstream : isStream prepared.payload = false) :
    message.body = cutTo (ownLength? prepared.headers) (bodyOf boundary prepared.payload) := by
  obtain ⟨url, -, -, rfl⟩ := ofPrepared_eq_ok_iff.mp h
  show (framed _ _ _ _).2 = _
  rw [hstream, framed_body, ownLength?_headersOf boundary url hstream]

/-- **What is sent of the payload is received**, unless the block tells more than there is of it. -/
theorem received_of_length_le (h : ofPrepared boundary prepared = .ok message)
    (hstream : isStream prepared.payload = false) (hbody : bodyOf boundary prepared.payload ≠ [])
    (hlength : ∀ length ∈ ownLength? prepared.headers,
      length ≤ (bodyOf boundary prepared.payload).length) :
    Received.ofBytes? message.toBytes = some (.ofMessage message) := by
  have hform : ∀ form, prepared.payload = .multipart form → isValue boundary = true := by
    intro form hform
    rw [hform] at hstream
    cases hstream
  apply (received_of_ofPrepared h hform).1
  obtain ⟨url, -, -, rfl⟩ := ofPrepared_eq_ok_iff.mp h
  rw [← ownLength?_headersOf boundary url hstream] at hlength
  exact isExact_ofTarget hstream hbody hlength

end

end WireRequest

end PlainRequest
