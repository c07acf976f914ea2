/-
# PlainRequest.Proofs.Http.Headers — which headers a message has, and what they tell of its body

The headers of one name in a message are those of the block, with the values that they have there, as
long as nothing else brings headers of that name. So the length that a block tells is the one that its
message tells.

A value is a list with commas, of which blanks around it and around its members are no part. A number
that is written as a value is told by it again, and what a reader of numbers is told, one that knows
more numbers is told as well.
-/

import PlainRequest.Http.Framing
import PlainRequest.Proofs.Text.Cutting
import Mathlib.Data.List.TakeWhile

namespace PlainRequest

open Text

/-! ## Digits -/

namespace Text

section

variable {base : Nat} {write : Char → Char}

theorem digitsValue_concat (digits : Text) (c : Char) :
    digitsValue base (digits ++ [c]) =
      digitsValue base digits * base + (digitValue? c).getD 0 := by
  rw [digitsValue, List.foldl_append]
  rfl

/-- **Digits that are written are read back**, however each of them is written. -/
theorem digits_map_toDigits (hbase : 1 < base)
    (hwrite : ∀ digit < base, digitValue? (write digit.digitChar) = some digit) (n : Nat) :
    ((Nat.toDigits base n).map write).all (isDigitOf base) = true ∧
      digitsValue base ((Nat.toDigits base n).map write) = n := by
  -- the last digit comes off the end
  induction n using Nat.strongRecOn with
  | _ n ih =>
      have hlt : n % base < base := Nat.mod_lt n (by omega)
      have hlast := hwrite (n % base) hlt
      have hdigit : isDigitOf base (write (n % base).digitChar) = true := by
        rw [isDigitOf, hlast]
        simpa using hlt
      rw [Nat.toDigits_eq_if hbase]
      split
      · next hsmall =>
          rw [Nat.mod_eq_of_lt hsmall] at hlast hdigit
          simp [digitsValue, hdigit, hlast]
      · next hlarge =>
          obtain ⟨hall, hvalue⟩ := ih (n / base) (Nat.div_lt_self (by omega) hbase)
          rw [List.map_append, List.map_singleton, List.all_append, hall, digitsValue_concat, hvalue,
            hlast]
          exact ⟨by simpa using hdigit, Nat.div_add_mod' n base⟩

theorem natOf?_map_toDigits (hbase : 1 < base)
    (hwrite : ∀ digit < base, digitValue? (write digit.digitChar) = some digit) (n : Nat) :
    natOf? base ((Nat.toDigits base n).map write) = some n := by
  obtain ⟨hall, hvalue⟩ := digits_map_toDigits hbase hwrite n
  have hne : Nat.toDigits base n ≠ [] := by
    rw [Nat.toDigits_eq_if hbase]
    split <;> simp
  rw [natOf?, hall, hvalue]
  simp [hne]

end

theorem isDecimal_of_mem_toDigits {n : Nat} {c : Char} (h : c ∈ Nat.toDigits 10 n) :
    isDecimal c = true := by
  have hall := (@digits_map_toDigits 10 id (by decide) (by decide) n).1
  rw [List.map_id] at hall
  exact List.all_eq_true.mp hall c h

theorem natOf?_toDigits (n : Nat) : natOf? 10 (Nat.toDigits 10 n) = some n := by
  have hread := @natOf?_map_toDigits 10 id (by decide) (by decide) n
  rwa [List.map_id] at hread

end Text

/-! ## Lists in a value -/

namespace Header

/-- Blanks around a text are no part of it. -/
theorem trimBlanks_append {front back : Text} (hfront : ∀ c ∈ front, isBlank c = true)
    (hback : ∀ c ∈ back, isBlank c = true) (text : Text) :
    trimBlanks (front ++ text ++ back) = trimBlanks text := by
  unfold trimBlanks
  rw [List.append_assoc, List.dropWhile_append_of_pos hfront]
  by_cases hall : ∀ c ∈ text, isBlank c = true
  · rw [List.dropWhile_append_of_pos hall, List.dropWhile_eq_nil_iff.mpr hback,
      List.dropWhile_eq_nil_iff.mpr hall]
  · have hne : text.dropWhile isBlank ≠ [] := fun hnil => hall (List.dropWhile_eq_nil_iff.mp hnil)
    rw [List.dropWhile_append, if_neg (by simpa using hne), List.reverse_append,
      List.dropWhile_append_of_pos fun c hc => hback c (List.mem_reverse.mp hc)]

theorem exists_trimBlanks (text : Text) :
    ∃ front back, text = front ++ trimBlanks text ++ back ∧ (∀ c ∈ front, isBlank c = true) ∧
      ∀ c ∈ back, isBlank c = true := by
  have hfront := List.takeWhile_append_dropWhile (p := isBlank) (l := text)
  have hback := List.takeWhile_append_dropWhile (p := isBlank)
    (l := (text.dropWhile isBlank).reverse)
  refine ⟨text.takeWhile isBlank, ((text.dropWhile isBlank).reverse.takeWhile isBlank).reverse,
    ?_, ?_, ?_⟩
  · rw [trimBlanks, List.append_assoc, ← List.reverse_append, hback, List.reverse_reverse, hfront]
  · exact fun c hc => List.all_eq_true.mp List.all_takeWhile c hc
  · exact fun c hc => List.all_eq_true.mp List.all_takeWhile c (List.mem_reverse.mp hc)

theorem comma_notMem {blanks : Text} (h : ∀ c ∈ blanks, isBlank c = true) : ',' ∉ blanks :=
  fun hmem => absurd (h ',' hmem) (by decide)

theorem members_append_blanks (value : Text) {back : Text} (h : ∀ c ∈ back, isBlank c = true) :
    members (value ++ back) = members value := by
  obtain ⟨front, last, first, rest, hvalue, hback, hboth⟩ := exists_splitAll_append ',' value back
  rw [splitAll_of_notMem (comma_notMem h)] at hback
  obtain ⟨rfl, rfl⟩ := List.cons.inj hback
  have hlast : trimBlanks (last ++ back) = trimBlanks last :=
    @trimBlanks_append [] back (by simp) h last
  rw [members, members, hboth, hvalue, List.map_append, List.map_append, List.map_singleton,
    List.map_singleton, hlast]

theorem members_blanks_append {front : Text} (h : ∀ c ∈ front, isBlank c = true) (value : Text) :
    members (front ++ value) = members value := by
  obtain ⟨pieces, last, first, rest, hfront, hvalue, hboth⟩ :=
    exists_splitAll_append ',' front value
  rw [splitAll_of_notMem (comma_notMem h)] at hfront
  obtain ⟨rfl, hlast⟩ := List.append_inj' (show [] ++ [front] = pieces ++ [last] from hfront) rfl
  obtain rfl := List.singleton_inj.mp hlast
  have hfirst : trimBlanks (front ++ first) = trimBlanks first := by
    have hnone := @trimBlanks_append front [] h (by simp) first
    rwa [List.append_nil] at hnone
  rw [members, members, hboth, hvalue, List.nil_append, List.map_cons, List.map_cons, hfirst]

/-- **Blanks around a value** are no part of its members. -/
theorem members_trimBlanks (value : Text) : members (trimBlanks value) = members value := by
  obtain ⟨front, back, hvalue, hfront, hback⟩ := exists_trimBlanks value
  calc members (trimBlanks value)
      _ = members (front ++ trimBlanks value) := (members_blanks_append hfront _).symm
      _ = members (front ++ trimBlanks value ++ back) := (members_append_blanks _ hback).symm
      _ = members value := by rw [← hvalue]

/-- A number is one member, and tells itself. -/
theorem members_toDigits (n : Nat) : members (Nat.toDigits 10 n) = [Nat.toDigits 10 n] := by
  have hcomma : ',' ∉ Nat.toDigits 10 n := fun hmem =>
    absurd (isDecimal_of_mem_toDigits hmem) (by decide)
  have hblank : ∀ c ∈ Nat.toDigits 10 n, isBlank c = false := by
    have hall : "0123456789".toList.all (! isBlank ·) = true := by decide
    intro c hc
    simpa using List.all_eq_true.mp hall c (mem_of_isDecimal (isDecimal_of_mem_toDigits hc))
  have hkeep : ∀ {text : Text}, (∀ c ∈ text, isBlank c = false) → text.dropWhile isBlank = text := by
    intro text htext
    cases text with
    | nil => rfl
    | cons c rest => exact List.dropWhile_cons_of_neg (by simp [htext c])
  rw [members, splitAll_of_notMem hcomma, List.map_singleton, trimBlanks, hkeep hblank,
    hkeep fun c hc => hblank c (List.mem_reverse.mp hc), List.reverse_reverse]

/-- **A coding that is made to end in chunks does.** -/
theorem endsInChunks_completeCoding (value : Text) : endsInChunks (completeCoding value) = true := by
  unfold completeCoding
  split
  · next h => exact (Bool.and_eq_true_iff.mp h).2
  · obtain ⟨front, last, first, rest, -, hadded, hboth⟩ :=
      exists_splitAll_append ',' value (", ".toList ++ chunked)
    have hcut : splitAll ',' (", ".toList ++ chunked) = [[], ' ' :: chunked] := by decide
    rw [hcut] at hadded
    obtain ⟨rfl, rfl⟩ := List.cons.inj hadded
    have hlast : (members (value ++ ", ".toList ++ chunked)).getLast? =
        some (trimBlanks (' ' :: chunked)) := by
      rw [List.append_assoc, members, hboth, List.getLast?_map, List.getLast?_append]
      rfl
    rw [endsInChunks, hlast]
    decide

/-! ## Lengths that are told -/

/-- Only the headers for it tell a length. -/
theorem toldBy?_filter (read : Text → Option Nat) (headers : List (Text × Text)) :
    toldBy? read (headers.filter (isCalled contentLength)) = toldBy? read headers := by
  rw [toldBy?, toldBy?, lengthMembers, lengthMembers, List.filter_filter]
  simp only [Bool.and_self]

/-- **A length that is written is told.** -/
theorem toldBy?_toDigits (n : Nat) :
    toldBy? (natOf? 10) [(contentLength, Nat.toDigits 10 n)] = some n := by
  have hmembers : lengthMembers [(contentLength, Nat.toDigits 10 n)] = [Nat.toDigits 10 n] := by
    rw [← members_toDigits n]
    exact List.append_nil _
  rw [toldBy?, hmembers, List.mapM_cons, List.mapM_nil, natOf?_toDigits]
  rfl

/-- **Where some numbers are read**, a reader that knows more of them reads the same. -/
theorem toldBy?_mono {read more : Text → Option Nat}
    (hmore : ∀ digits number, read digits = some number → more digits = some number)
    {headers : List (Text × Text)} {length : Nat} (h : toldBy? read headers = some length) :
    toldBy? more headers = some length := by
  have hmap : ∀ (texts : List Text) {numbers}, texts.mapM read = some numbers →
      texts.mapM more = some numbers := by
    intro texts
    induction texts with
    | nil => exact id
    | cons first rest ih =>
        intro numbers hnumbers
        simp only [List.mapM_cons, Option.bind_eq_bind, Option.bind_eq_some_iff] at hnumbers ⊢
        obtain ⟨number, hfirst, others, hrest, hsame⟩ := hnumbers
        exact ⟨number, hmore first number hfirst, others, ih hrest, hsame⟩
  unfold toldBy? at h ⊢
  split at h
  · next hread =>
      rw [hmap _ hread]
      exact h
  · cases h

/-! ## Headers of one name -/

section

variable {name : Text}

theorem isCalled_iff {header : Text × Text} : isCalled name header = true ↔ lower header.1 = name :=
  decide_eq_true_iff

/-- A header has one name. -/
theorem isCalled_eq_false {other : Text} {header : Text × Text} (h : isCalled other header = true)
    (hne : name ≠ other) : isCalled name header = false := by
  rw [isCalled, isCalled_iff.mp h, decide_eq_false hne.symm]

theorem isCalled_mk_eq_false {other : Text} (value : Text) (hlower : lower other = other)
    (hne : name ≠ other) : isCalled name (other, value) = false :=
  isCalled_eq_false (isCalled_iff.mpr hlower) hne

theorem isCalled_lower (header : Text × Text) :
    isCalled name (lower header.1, header.2) = isCalled name header := by
  rw [isCalled, isCalled, lower_lower]

theorem filter_isCalled_eq_nil {headers : List (Text × Text)}
    (h : ∀ header ∈ headers, isCalled name header = false) : headers.filter (isCalled name) = [] :=
  List.filter_eq_nil_iff.mpr fun header hmem => by simp [h header hmem]

theorem any_isCalled_eq_false_iff {headers : List (Text × Text)} :
    headers.any (isCalled name) = false ↔ headers.filter (isCalled name) = [] := by
  rw [List.filter_eq_nil_iff, List.any_eq_false]

theorem any_isCalled_eq_true_iff {headers : List (Text × Text)} :
    headers.any (isCalled name) = true ↔ headers.filter (isCalled name) ≠ [] := by
  rw [ne_eq, ← any_isCalled_eq_false_iff, Bool.not_eq_false]

/-- On the wire the headers of one name have that name, and the values that they had. -/
theorem filter_isCalled_map_lower (headers : List (Text × Text)) :
    (headers.map fun (name, value) => (lower name, value)).filter (isCalled name) =
      (headers.filter (isCalled name)).map fun header => (name, header.2) := by
  rw [List.filter_map]
  have hsame : (isCalled name ∘ fun header : Text × Text => (lower header.1, header.2)) =
      isCalled name := funext isCalled_lower
  show List.map (fun header : Text × Text => (lower header.1, header.2)) (headers.filter
    (isCalled name ∘ fun header : Text × Text => (lower header.1, header.2))) = _
  rw [hsame]
  refine List.map_congr_left fun header hmem => ?_
  rw [isCalled_iff.mp (List.mem_filter.mp hmem).2]

/-- Without the headers of another name there are as many. -/
theorem filter_isCalled_filter_not {other : Text} (hne : name ≠ other)
    (headers : List (Text × Text)) :
    (headers.filter (! isCalled other ·)).filter (isCalled name) = headers.filter (isCalled name) := by
  rw [List.filter_filter]
  refine List.filter_congr fun header _ => ?_
  cases hcalled : isCalled other header with
  | false => simp
  | true => simp [isCalled_eq_false hcalled hne]

theorem filter_isCalled_completeCodings (hne : name ≠ transferEncoding)
    (headers : List (Text × Text)) :
    (completeCodings headers).filter (isCalled name) = headers.filter (isCalled name) := by
  induction headers with
  | nil => rfl
  | cons header rest ih =>
      rw [completeCodings]
      split
      · next hlast =>
          -- only the value is another one, of a header that has another name
          have hother := isCalled_eq_false (Bool.and_eq_true_iff.mp hlast).1 hne
          have hsame : isCalled name (header.1, completeCoding header.2) = false := hother
          rw [List.filter_cons, List.filter_cons, hother, hsame]
          rfl
      · rw [List.filter_cons, List.filter_cons, ih]

end

/-- The names stay. -/
theorem any_isCalled_completeCodings (name : Text) (headers : List (Text × Text)) :
    (completeCodings headers).any (isCalled name) = headers.any (isCalled name) := by
  induction headers with
  | nil => rfl
  | cons header rest ih =>
      rw [completeCodings]
      split
      · rfl
      · rw [List.any_cons, List.any_cons, ih]

/-- **The last transfer coding** that is made to end in chunks does. -/
theorem endsInChunks_of_mem_completeCodings {headers : List (Text × Text)} {header : Text × Text}
    (h : header ∈ ((completeCodings headers).filter (isCalled transferEncoding)).getLast?) :
    endsInChunks header.2 = true := by
  induction headers with
  | nil => cases h
  | cons first rest ih =>
      rw [completeCodings] at h
      split at h
      · next hlast =>
          obtain ⟨hcalled, hrest⟩ := Bool.and_eq_true_iff.mp hlast
          have hnone : rest.filter (isCalled transferEncoding) = [] :=
            any_isCalled_eq_false_iff.mp (by simpa using hrest)
          have hcoding : isCalled transferEncoding (first.1, completeCoding first.2) = true := hcalled
          rw [List.filter_cons, hcoding, hnone] at h
          obtain rfl := Option.some.inj h
          exact endsInChunks_completeCoding first.2
      · next hlast =>
          rw [List.filter_cons] at h
          split at h
          · next hcalled =>
              -- there is another one behind it, so the last one is found there
              have hrest : (completeCodings rest).any (isCalled transferEncoding) = true := by
                rw [any_isCalled_completeCodings]
                simpa [hcalled] using hlast
              rw [List.getLast?_cons_of_ne_nil (any_isCalled_eq_true_iff.mp hrest)] at h
              exact ih h
          · exact ih h

end Header

/-! ## The headers of a message -/

namespace WireRequest

open Header

variable {name : Text}

/-- **What frames a message** tells where it goes, how long its body is, and that nothing follows it. -/
theorem of_mem_framingHeaders {message : WireRequest} {header : Text × Text}
    (h : header ∈ message.framingHeaders) :
    header = hostHeader message.url ∨
      header = (contentLength, Nat.toDigits 10 message.body.length) ∨
      header = ("connection".toList, "close".toList) := by
  simp only [framingHeaders, List.mem_append, List.mem_ite_nil_right, List.mem_singleton] at h
  obtain (⟨-, hhost⟩ | ⟨-, hlength⟩) | hconnection := h
  · exact .inl hhost
  · exact .inr (.inl hlength)
  · exact .inr (.inr hconnection)

theorem filter_isCalled_framingHeaders (message : WireRequest) (hhost : name ≠ "host".toList)
    (hlength : name ≠ contentLength) (hconnection : name ≠ "connection".toList) :
    message.framingHeaders.filter (isCalled name) = [] := by
  apply filter_isCalled_eq_nil
  intro header hmem
  obtain rfl | rfl | rfl := of_mem_framingHeaders hmem
  · exact isCalled_mk_eq_false _ (by decide) hhost
  · exact isCalled_mk_eq_false _ (by decide) hlength
  · exact isCalled_mk_eq_false _ (by decide) hconnection

/-- A length is added where the message tells none. -/
theorem filter_contentLength_framingHeaders (message : WireRequest) :
    message.framingHeaders.filter (isCalled contentLength) =
      if ! message.headers.any (isCalled contentLength) && ! message.isChunked
          && (tellsLength message.method || ! message.body.isEmpty) then
        [(contentLength, Nat.toDigits 10 message.body.length)]
      else [] := by
  have hhost : [hostHeader message.url].filter (isCalled contentLength) = [] := rfl
  have hconnection : [("connection".toList, "close".toList)].filter (isCalled contentLength) = [] := rfl
  have hlength : ∀ value, [(contentLength, value)].filter (isCalled contentLength) =
      [(contentLength, value)] := fun _ => rfl
  unfold framingHeaders
  dsimp only
  rw [List.filter_append, List.filter_append, hconnection, List.append_nil, apply_ite (List.filter _),
    apply_ite (List.filter _), hhost, hlength, List.filter_nil, ite_self, List.nil_append]

theorem filter_isCalled_credentials (url : Url) (hname : name ≠ "authorization".toList) :
    url.splitCredentials.2.filter (isCalled name) = [] := by
  unfold Url.splitCredentials
  split
  · rfl
  · exact filter_isCalled_eq_nil
      (List.forall_mem_singleton.mpr (isCalled_mk_eq_false _ (by decide) hname))

theorem filter_isCalled_withAccept (headers : List (Text × Text)) (hname : name ≠ acceptAny.1) :
    (withAccept headers).filter (isCalled name) = headers.filter (isCalled name) := by
  have haccept : isCalled name acceptAny = false := isCalled_mk_eq_false _ (by decide) hname
  unfold withAccept
  split
  · rfl
  · simp [haccept]

/-- **The headers of one name** are those of the block, and then those that the payload brings. -/
theorem filter_isCalled_headersOf (boundary : Text) (url : Url) (prepared : Prepared)
    (hcredentials : name ≠ "authorization".toList) (haccept : name ≠ acceptAny.1) :
    (headersOf boundary url.splitCredentials.2 prepared).filter (isCalled name) =
      ((blockHeaders prepared).filter (isCalled name)).map (fun header => (name, header.2)) ++
        (payloadHeaders boundary prepared).filter (isCalled name) := by
  rw [headersOf, filter_isCalled_withAccept _ haccept, List.filter_append, List.filter_append,
    filter_isCalled_credentials url hcredentials, filter_isCalled_map_lower, List.nil_append]

/-- Where the body is no stream, the payload brings nothing but a media type. -/
theorem filter_isCalled_payloadHeaders (boundary : Text) {prepared : Prepared}
    (hstream : isStream prepared.payload = false) (htype : name ≠ contentType) :
    (payloadHeaders boundary prepared).filter (isCalled name) = [] := by
  apply filter_isCalled_eq_nil
  unfold payloadHeaders
  split
  · next form hform =>
      rw [hform] at hstream
      cases hstream
  · split
    · nofun
    · exact List.forall_mem_singleton.mpr (isCalled_mk_eq_false _ (by decide) htype)
  · nofun

theorem blockHeaders_of_not_isStream {prepared : Prepared}
    (hstream : isStream prepared.payload = false) : blockHeaders prepared = prepared.headers := by
  unfold blockHeaders
  split
  · next form hform =>
      rw [hform] at hstream
      cases hstream
  · rfl

/-- **Where the body is no stream**, the headers of any other name are those of the block. -/
theorem filter_isCalled_headersOf_of_not_isStream (boundary : Text) (url : Url) {prepared : Prepared}
    (hstream : isStream prepared.payload = false) (hcredentials : name ≠ "authorization".toList)
    (haccept : name ≠ acceptAny.1) (htype : name ≠ contentType) :
    (headersOf boundary url.splitCredentials.2 prepared).filter (isCalled name) =
      (prepared.headers.filter (isCalled name)).map fun header => (name, header.2) := by
  rw [filter_isCalled_headersOf boundary url prepared hcredentials haccept,
    blockHeaders_of_not_isStream hstream, filter_isCalled_payloadHeaders boundary hstream htype,
    List.append_nil]

/-- **What is said about the end of a body** changes no other header. -/
theorem filter_isCalled_framed (isStream : Bool) (method : Method) (headers : List (Text × Text))
    (body : Bytes) (hlength : name ≠ contentLength) (hcoding : name ≠ transferEncoding) :
    (framed isStream method headers body).1.filter (isCalled name) =
      headers.filter (isCalled name) := by
  have hwithout := filter_isCalled_filter_not hlength headers
  unfold framed
  dsimp only
  split
  · exact filter_isCalled_filter_not hcoding headers
  split
  · rw [filter_isCalled_completeCodings hcoding]
    split
    · exact hwithout
    · rfl
  split
  · rfl
  split
  · exact hwithout
  split
  · rfl
  · have hchunked : isCalled name (transferEncoding, chunked) = false :=
      isCalled_mk_eq_false _ (by decide) hcoding
    simp [hchunked]

/-- **When there is a message**, and which one. -/
theorem ofPrepared_eq_ok_iff {boundary : Text} {prepared : Prepared} {message : WireRequest} :
    ofPrepared boundary prepared = .ok message ↔
      ∃ url, Url.ofText prepared.url = .ok url ∧
        check url url.splitCredentials.1 prepared = .ok () ∧
        message = ofTarget boundary url.splitCredentials.1 url.splitCredentials.2 prepared := by
  unfold ofPrepared
  cases Url.ofText prepared.url with
  | error error => simp [throw, throwThe, MonadExceptOf.throw]
  | ok url =>
      cases hcheck : check url url.splitCredentials.1 prepared with
      | error fault => simp [hcheck, throw, throwThe, MonadExceptOf.throw]
      | ok _ => simp [hcheck, pure, Except.pure, eq_comm]

end WireRequest

end PlainRequest
