/-
# PlainRequest.Proofs.Form.UrlEncoded — form fields on one line reach the server as they are

Four characters mean something in a form on one line: `+` is a space, `%` begins a byte, `=` ends a name
and `&` a field. None of them stands for itself in what is written, so whoever reads it finds every mark
where it was put: the fields are cut apart where they were joined, and each name and value gives the bytes
of its text. These bytes are well-formed, so a server gets the same fields whether it refuses bytes that
are no text or replaces them.

A block may tell a length of its own for the body, and that is kept to: if it is smaller than the form, only
the beginning of the form is sent.
-/

import PlainRequest.Proofs.Http.Posting
import PlainRequest.Proofs.Http.Preparing
import PlainRequest.Proofs.Keyed
import PlainRequest.Proofs.Request.Classification
import PlainRequest.Proofs.Text.Cutting
import PlainRequest.Proofs.Text.Utf8

namespace PlainRequest

open Text

/-! ## Percent signs -/

namespace Text

theorem isAlphanum_hexDigitUpper {n : Nat} (h : n < 16) : (hexDigitUpper n).isAlphanum = true := by
  have hall : ∀ m : Fin 16, (hexDigitUpper m).isAlphanum = true := by decide
  exact hall ⟨n, h⟩

/-- A byte is written with a percent sign and digits, and nothing else. -/
theorem of_mem_percentByte {byte : UInt8} {c : Char} (h : c ∈ percentByte byte) :
    c = '%' ∨ c.isAlphanum = true := by
  have hlt : byte.toNat < 256 := byte.toNat_lt
  simp only [percentByte, List.mem_cons, List.not_mem_nil, or_false] at h
  rcases h with rfl | rfl | rfl
  · exact .inl rfl
  · exact .inr (isAlphanum_hexDigitUpper (by omega))
  · exact .inr (isAlphanum_hexDigitUpper (by omega))

theorem percentDecode_cons {c : Char} (h : c ≠ '%') (rest : Text) :
    percentDecode (c :: rest) = String.utf8EncodeChar c ++ percentDecode rest := by
  rw [percentDecode]
  intro high low others hsame
  exact absurd hsame h

/-- Bytes that were written read back. -/
theorem percentDecode_flatMap_percentByte (bytes : Bytes) (rest : Text) :
    percentDecode (bytes.flatMap percentByte ++ rest) = bytes ++ percentDecode rest := by
  induction bytes with
  | nil => rfl
  | cons byte bytes ih =>
      rw [List.flatMap_cons, List.append_assoc, percentDecode_percentByte, ih, List.cons_append]

end Text

namespace Form

/-! ## Names and values -/

/-- The bytes that a name or value stands for. -/
def bytesOf (text : Text) : Bytes := percentDecode (text.map plusToSpace)

/-- Read a name or value, if it stands for a text. -/
def decodeText? (text : Text) : Option Text := ofUtf8? (bytesOf text)

theorem plusToSpace_of_ne {c : Char} (h : c ≠ '+') : plusToSpace c = c := if_neg h

theorem ne_of_isKept {c d : Char} (h : isKept c = true) (hmark : isKept d = false) : c ≠ d := by
  intro hsame
  rw [hsame, hmark] at h
  cases h

theorem isKept_of_isAlphanum {c : Char} (h : c.isAlphanum = true) : isKept c = true := by
  rw [isKept, h, Bool.true_or]

theorem of_mem_encodeChar {c d : Char} (h : d ∈ encodeChar c) :
    d = '+' ∨ d = '%' ∨ isKept d = true := by
  unfold encodeChar percentChar at h
  split at h
  · exact .inl (List.mem_singleton.mp h)
  · split at h
    · next hkept =>
        rw [List.mem_singleton.mp h]
        exact .inr (.inr hkept)
    · obtain ⟨byte, -, hbyte⟩ := List.mem_flatMap.mp h
      rcases of_mem_percentByte hbyte with hpercent | hdigit
      · exact .inr (.inl hpercent)
      · exact .inr (.inr (isKept_of_isAlphanum hdigit))

/-- **A character that means something else** does not stand in a name or value. -/
theorem notMem_encodeText {c : Char} (hplus : c ≠ '+') (hpercent : c ≠ '%')
    (hkept : isKept c = false) (text : Text) : c ∉ encodeText text := by
  intro hmem
  obtain ⟨d, -, hd⟩ := List.mem_flatMap.mp hmem
  rcases of_mem_encodeChar hd with hc | hc | hc
  · exact hplus hc
  · exact hpercent hc
  · exact ne_of_isKept hc hkept rfl

/-- **A character stands for its bytes**, whatever follows. -/
theorem bytesOf_encodeChar (c : Char) (rest : Text) :
    bytesOf (encodeChar c ++ rest) = String.utf8EncodeChar c ++ bytesOf rest := by
  unfold bytesOf
  rw [List.map_append]
  unfold encodeChar percentChar
  split
  · next hspace =>
      subst hspace
      show percentDecode (' ' :: rest.map plusToSpace) = _
      rw [percentDecode_cons (by decide)]
  · split
    · next hkept =>
        have hplus : c ≠ '+' := ne_of_isKept hkept (by decide)
        have hpercent : c ≠ '%' := ne_of_isKept hkept (by decide)
        show percentDecode (plusToSpace c :: rest.map plusToSpace) = _
        rw [plusToSpace_of_ne hplus, percentDecode_cons hpercent]
    · have hsame : ((String.utf8EncodeChar c).flatMap percentByte).map plusToSpace =
          (String.utf8EncodeChar c).flatMap percentByte := by
        refine (List.map_congr_left fun d hd => ?_).trans (List.map_id _)
        obtain ⟨byte, -, hbyte⟩ := List.mem_flatMap.mp hd
        apply plusToSpace_of_ne
        rcases of_mem_percentByte hbyte with rfl | hdigit
        · decide
        · exact ne_of_isKept (isKept_of_isAlphanum hdigit) (by decide)
      rw [hsame, percentDecode_flatMap_percentByte]

/-- **A name or value stands for the bytes of its text.** -/
theorem bytesOf_encodeText (text : Text) : bytesOf (encodeText text) = toUtf8 text := by
  induction text with
  | nil => rfl
  | cons c rest ih =>
      show bytesOf (encodeChar c ++ encodeText rest) = String.utf8EncodeChar c ++ toUtf8 rest
      rw [bytesOf_encodeChar, ih]

theorem decodeText_encodeText (text : Text) : decodeText (encodeText text) = text := by
  show ofUtf8Lossy (bytesOf (encodeText text)) = text
  rw [bytesOf_encodeText, ofUtf8Lossy_toUtf8]

theorem decodeText?_encodeText (text : Text) : decodeText? (encodeText text) = some text := by
  rw [decodeText?, bytesOf_encodeText, ofUtf8?_toUtf8]

/-! ## Fields -/

/-- Cut a field into name and value; without an equals sign all of it is the name. -/
def cutField (piece : Text) : Text × Text := (splitFirst? '=' piece).getD (piece, [])

/-- Cut a form into its fields, as they are written. -/
def cut (text : Text) : List (Text × Text) :=
  ((splitAll '&' text).filter (! ·.isEmpty)).map cutField

/-- Read a field, if its name and its value stand for texts. -/
def readField? (field : Text × Text) : Option (Text × Text) := do
  let name ← decodeText? field.1
  let value ← decodeText? field.2
  pure (name, value)

/-- Read fields without replacing anything, if every name and every value stands for a text. -/
def decode? (text : Text) : Option (List (Text × Text)) := (cut text).mapM readField?

theorem decode_eq (text : Text) :
    decode text = (cut text).map fun field => (decodeText field.1, decodeText field.2) := by
  have hempty : decodeText [] = [] := decodeText_encodeText []
  unfold decode cut
  rw [List.map_map]
  refine List.map_congr_left fun piece _ => ?_
  show decodeField piece = _
  unfold decodeField cutField
  cases hcut : splitFirst? '=' piece with
  | none => simp [hcut, hempty]
  | some parts => simp [hcut]

theorem cutField_encodeField (field : Text × Text) :
    cutField (encodeField field) = (encodeText field.1, encodeText field.2) := by
  have hname : '=' ∉ encodeText field.1 :=
    notMem_encodeText (by decide) (by decide) (by decide) field.1
  rw [cutField, encodeField, List.append_assoc, List.singleton_append,
    Line.splitFirst?_append hname]
  rfl

theorem and_notMem_encodeField (field : Text × Text) : '&' ∉ encodeField field := by
  have hnone : ∀ text, '&' ∉ encodeText text :=
    notMem_encodeText (by decide) (by decide) (by decide)
  rw [encodeField]
  simp [hnone]

/-- **Fields are cut apart where they were joined.** -/
theorem cut_encode (fields : List (Text × Text)) :
    cut (encode fields) = fields.map fun field => (encodeText field.1, encodeText field.2) := by
  by_cases hnone : fields = []
  · rw [hnone]
    rfl
  · have hpieces : splitAll '&' (encode fields) = fields.map encodeField := by
      apply splitAll_joinWith
      · simpa using hnone
      · intro piece hpiece
        obtain ⟨field, -, rfl⟩ := List.mem_map.mp hpiece
        exact and_notMem_encodeField field
    have hall : (fields.map encodeField).filter (! ·.isEmpty) = fields.map encodeField := by
      rw [List.filter_eq_self]
      intro piece hpiece
      obtain ⟨field, -, rfl⟩ := List.mem_map.mp hpiece
      simp [encodeField]
    rw [cut, hpieces, hall, List.map_map]
    exact List.map_congr_left fun field _ => cutField_encodeField field

/-- **Fields that are written are read back.** -/
theorem decode_encode (fields : List (Text × Text)) : decode (encode fields) = fields := by
  rw [decode_eq, cut_encode, List.map_map]
  refine (List.map_congr_left fun field _ => ?_).trans (List.map_id _)
  show (decodeText (encodeText field.1), decodeText (encodeText field.2)) = field
  rw [decodeText_encodeText, decodeText_encodeText]

/-- Nothing is replaced in them. -/
theorem decode?_encode (fields : List (Text × Text)) : decode? (encode fields) = some fields := by
  rw [decode?, cut_encode]
  induction fields with
  | nil => rfl
  | cons field rest ih =>
      have hfield : readField? (encodeText field.1, encodeText field.2) = some field := by
        simp [readField?, decodeText?_encodeText]
      rw [List.map_cons, List.mapM_cons, hfield, ih]
      rfl

end Form

/-- A form with a field is written with some character. -/
theorem Form.toUtf8_encode_ne_nil {fields : List (Text × Text)} (h : fields ≠ []) :
    toUtf8 (Form.encode fields) ≠ [] := by
  intro hnil
  have hread := ofUtf8?_toUtf8 (Form.encode fields)
  rw [hnil, show ofUtf8? [] = some [] from ofUtf8?_toUtf8 []] at hread
  apply h
  rw [← Form.decode_encode fields, ← Option.some.inj hread]
  decide

/-! ## On the wire -/

namespace Prepared

open Keyed

/-- Fields that all hold text are names with texts. -/
theorem exists_literals {fields : List (Text × FieldValue)}
    (h : ∀ field ∈ fields, ∃ text, field.2 = .literal text) :
    ∃ pairs, fields = mapValues .literal pairs := by
  induction fields with
  | nil => exact ⟨[], rfl⟩
  | cons field rest ih =>
      rw [List.forall_mem_cons] at h
      obtain ⟨⟨text, htext⟩, hrest⟩ := h
      obtain ⟨pairs, hpairs⟩ := ih hrest
      refine ⟨(field.1, text) :: pairs, ?_⟩
      show field :: rest = (field.1, .literal text) :: mapValues .literal pairs
      rw [← hpairs, ← htext]

/-- **A form that holds nothing but texts** goes on one line. -/
theorem payloadOf_mapValues (disk : Files Id) (pairs : List (Text × Text)) :
    (payloadOf disk (.form (mapValues .literal pairs))).run = .ok (.urlEncoded pairs) :=
  payloadOf_eq_ok_iff.mpr (.urlEncoded pairs)

end Prepared

/-- **Form fields reach the server as they are**, if the block tells no shorter body. Whatever a block says,
if it is read as a form whose fields all hold text, then every message that sending it puts on the wire has
the body of one text, which read as a form on one line gives the fields of the form with their names and
values, in form order, and no byte of it has to be replaced. The body is all of that text, unless headers
of the block tell a smaller length for it, which is kept to; and a server that reads the bytes of the
message gets this body, unless they tell a larger one. -/
theorem posted_form (disk : Files Id) (boundary : Text)
    (answer : WireRequest → Except (List Text) RawResponse) (settings : JsonSettings)
    {document block : List Text} {request : Request} {fields : List (Text × FieldValue)}
    (hrequest : Request.ofBlock (Table.resolve document block) block = .ok request)
    (hform : request.body = .form fields)
    (hliteral : ∀ field ∈ fields, ∃ text, field.2 = .literal text) :
    ∀ message ∈ posted disk boundary answer settings document block, ∃ text,
      Keyed.mapValues .literal (Form.decode text) = fields ∧
      Form.decode? text = some (Form.decode text) ∧
      message.body = WireRequest.cutTo (WireRequest.ownLength? request.headers) (toUtf8 text) ∧
      ((∀ length ∈ WireRequest.ownLength? request.headers, (toUtf8 text).length ≤ length) →
        ofUtf8? message.body = some text) ∧
      ((∀ length ∈ WireRequest.ownLength? request.headers, length ≤ (toUtf8 text).length) →
        Received.ofBytes? message.toBytes = some (.ofMessage message)) := by
  intro message hmessage
  obtain ⟨pairs, rfl⟩ := Prepared.exists_literals hliteral
  have hpairs : pairs ≠ [] := by
    rintro rfl
    exact Request.ne_nil_of_form hrequest hform rfl
  obtain ⟨prepared, hprepared, hwire⟩ := mem_posted_iff.mp hmessage
  obtain ⟨sent, payload, hsent, hpayload, rfl⟩ := Prepared.exists_of_ofBlock hprepared
  obtain rfl := Except.ok.inj (hrequest.symm.trans hsent)
  rw [hform, Prepared.payloadOf_mapValues] at hpayload
  obtain rfl := Except.ok.inj hpayload
  have hbody := WireRequest.body_of_ofPrepared hwire rfl
  refine ⟨Form.encode pairs, ?_, ?_, hbody, ?_, ?_⟩
  · rw [Form.decode_encode]
  · rw [Form.decode?_encode, Form.decode_encode]
  · intro hlength
    rw [hbody]
    exact (congrArg ofUtf8? (WireRequest.cutTo_of_le hlength)).trans (ofUtf8?_toUtf8 _)
  · exact WireRequest.received_of_length_le hwire rfl (Form.toUtf8_encode_ne_nil hpairs)

/-- A field without name and value, a name in two lines, every mark of the form, a tab, and characters of
several bytes out of a variable. -/
theorem posted_form_marks :
    let disk : Files Id := ⟨fun _ => .error .notFound, fun _ => false⟩
    let block := ["# :v = é%41&😀".toList, "POST http://h/".toList, "=".toList, "a b=1".toList,
      "+&%=x=y\t".toList, "a b=:v".toList]
    ∃ message ∈ posted disk [] (fun _ => .error []) {} [] block, ∃ text,
      Received.ofBytes? message.toBytes = some (.ofMessage message) ∧
        ofUtf8? message.body = some text ∧
        Form.decode? text = some
          [([], []), ("a b".toList, "é%41&😀".toList), ("+&%".toList, "x=y\t".toList)] := by
  intro disk block
  let pairs : List (Text × Text) :=
    [([], []), ("a b".toList, "é%41&😀".toList), ("+&%".toList, "x=y\t".toList)]
  have hrequest : Request.ofBlock (Table.resolve [] block) block =
      .ok ⟨.post, "http://h/".toList, [], .form (Keyed.mapValues .literal pairs)⟩ := by
    decide +kernel
  have hliteral : ∀ field ∈ Keyed.mapValues FieldValue.literal pairs,
      ∃ text, field.2 = .literal text := by
    intro field hmem
    obtain ⟨pair, -, rfl⟩ := List.mem_map.mp hmem
    exact ⟨pair.2, rfl⟩
  obtain ⟨message, hmessage⟩ :=
    List.exists_mem_of_ne_nil (posted disk [] (fun _ => .error []) {} [] block) (by decide +kernel)
  obtain ⟨text, hfields, hnothing, -, hwhole, hreceived⟩ :=
    posted_form disk [] (fun _ => .error []) {} hrequest rfl hliteral message hmessage
  have hpairs : Form.decode text = pairs :=
    List.map_injective_iff.mpr (fun a b hab => by simpa [Prod.ext_iff] using hab) hfields
  rw [hpairs] at hnothing
  exact ⟨message, hmessage, text, hreceived nofun, hwhole nofun, hnothing⟩

/-- A block that tells a length smaller than that of its form: the form has one field, `a=hello`, and the
body on the wire is another one, `a=h`. -/
theorem posted_form_shortLength :
    let disk : Files Id := ⟨fun _ => .error .notFound, fun _ => false⟩
    let block := ["POST http://h/p".toList, "Content-Length: 3".toList, "a=hello".toList]
    let request : Request := ⟨.post, "http://h/p".toList, [("Content-Length".toList, ['3'])],
      .form [(['a'], .literal "hello".toList)]⟩
    Request.ofBlock (Table.resolve [] block) block = .ok request ∧
    ∃ message ∈ posted disk [] (fun _ => .error []) {} [] block, ∃ text,
      ofUtf8? message.body = some text ∧ Form.decode text = [(['a'], ['h'])] ∧
        Form.decode text ≠ [(['a'], "hello".toList)] := by
  intro disk block request
  refine ⟨by decide +kernel, ?_⟩
  have hbodies : (posted disk [] (fun _ => .error []) {} [] block).map WireRequest.body =
      [toUtf8 "a=h".toList] := by decide +kernel
  obtain ⟨message, hmessage, hbody⟩ := List.mem_map.mp (hbodies ▸ List.mem_singleton_self _)
  refine ⟨message, hmessage, "a=h".toList, ?_, by decide +kernel, by decide +kernel⟩
  rw [hbody, ofUtf8?_toUtf8]

end PlainRequest
