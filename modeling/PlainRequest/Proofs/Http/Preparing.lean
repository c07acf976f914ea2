/-
# PlainRequest.Proofs.Http.Preparing — what a prepared request carries

Preparing keeps the method, the URL and the headers of a request, and makes a payload of its body. `Carries`
says which one: nothing for an empty body, a text for raw text, and for a form either its texts alone, or, as
soon as a field is something else, the texts and the attachments, each in form order. No field is lost and
none is sent twice. A request has such a payload if and only if every file of its form can be read.
-/

import PlainRequest.Proofs.Http.Attachments
import PlainRequest.Proofs.Keyed
import Mathlib.Data.List.Forall2

namespace PlainRequest

open Text Keyed

/-! ## Texts and attachments of a form -/

/-- Does the field hold text? -/
def isTextField : Text × FieldValue → Bool
  | (_, .literal _) => true
  | _ => false

/-- **`Attaches disk field attachment`** — the field is sent as this attachment: a file with the bytes that
are read from its path, called by the last part of the path, or by the whole path if that names no file; and
content in UTF-8, called like its field. -/
inductive Attaches (disk : Files Id) : Text × FieldValue → Attachment → Prop
  | file {field path : Text} {bytes : Bytes} (h : (disk.read path).run = .ok bytes) :
      Attaches disk (field, .file path) ⟨field, (Path.fileName? path).getD path, bytes⟩
  | content (field text : Text) : Attaches disk (field, .content text) ⟨field, field, toUtf8 text⟩

/-- **`Divides disk fields form`** — the fields are divided among the texts and the attachments of the form
that is sent: the fields that hold text are its texts, and the others its attachments, both in the order in
which they stand among the fields. -/
structure Divides (disk : Files Id) (fields : List (Text × FieldValue)) (form : Multipart) : Prop where
  texts : fields.filter isTextField = mapValues .literal form.fields
  attachments : List.Forall₂ (Attaches disk) (fields.filter (! isTextField ·)) form.attachments

/-- Every field is on one side. -/
theorem Divides.length {disk : Files Id} {fields : List (Text × FieldValue)} {form : Multipart}
    (h : Divides disk fields form) : form.fields.length + form.attachments.length = fields.length := by
  have htexts := congrArg List.length h.texts
  rw [mapValues, List.length_map] at htexts
  rw [← htexts, ← h.attachments.length_eq]
  exact (List.length_eq_length_filter_add isTextField).symm

namespace Prepared

variable {disk : Files Id}

theorem mapValues_literalFields (fields : List (Text × FieldValue)) :
    mapValues .literal (literalFields fields) = fields.filter isTextField := by
  induction fields with
  | nil => rfl
  | cons field rest ih =>
      obtain ⟨name, value⟩ := field
      cases value with
      | literal text =>
          show (name, FieldValue.literal text) :: mapValues .literal (literalFields rest) = _
          rw [ih]
          rfl
      | file path => exact ih
      | content text => exact ih

theorem literalFields_mapValues (pairs : List (Text × Text)) :
    literalFields (mapValues .literal pairs) = pairs := by
  induction pairs with
  | nil => rfl
  | cons pair rest ih =>
      show pair :: literalFields (mapValues .literal rest) = pair :: rest
      rw [ih]

/-- The texts of a form are the fields that hold text. -/
theorem literalFields_eq_of_divides {fields : List (Text × FieldValue)} {form : Multipart}
    (h : Divides disk fields form) : literalFields fields = form.fields := by
  rw [← literalFields_mapValues (literalFields fields), mapValues_literalFields, h.texts,
    literalFields_mapValues]

theorem attaches_file_iff {field path : Text} {attachment : Attachment} :
    Attaches disk (field, .file path) attachment ↔
      ∃ bytes, (disk.read path).run = .ok bytes ∧ fileAttachment field path bytes = attachment := by
  constructor
  · rintro ⟨h⟩
    exact ⟨_, h, rfl⟩
  · rintro ⟨bytes, h, rfl⟩
    exact .file h

theorem attaches_content_iff {field text : Text} {attachment : Attachment} :
    Attaches disk (field, .content text) attachment ↔ contentAttachment field text = attachment := by
  constructor
  · rintro ⟨⟩
    rfl
  · rintro rfl
    exact .content field text

/-- **Reading the attachments** succeeds with those of the fields that hold no text. -/
theorem readAttachments_eq_ok_iff {fields : List (Text × FieldValue)} {attachments : List Attachment} :
    (readAttachments disk fields).run = .ok attachments ↔
      List.Forall₂ (Attaches disk) (fields.filter (! isTextField ·)) attachments := by
  induction fields generalizing attachments with
  | nil =>
      rw [List.filter_nil, List.forall₂_nil_left_iff]
      show Except.ok [] = Except.ok attachments ↔ _
      rw [Except.ok.injEq, eq_comm]
  | cons field rest ih =>
      obtain ⟨name, value⟩ := field
      cases value with
      | literal text => exact ih
      | content text =>
          show _ ↔ List.Forall₂ (Attaches disk)
            ((name, .content text) :: rest.filter (! isTextField ·)) attachments
          rw [readAttachments_content, map_eq_ok_iff, List.forall₂_cons_left_iff]
          simp only [ih, attaches_content_iff]
          constructor
          · rintro ⟨others, hothers, rfl⟩
            exact ⟨_, others, rfl, hothers, rfl⟩
          · rintro ⟨_, others, rfl, hothers, rfl⟩
            exact ⟨others, hothers, rfl⟩
      | file path =>
          show _ ↔ List.Forall₂ (Attaches disk)
            ((name, .file path) :: rest.filter (! isTextField ·)) attachments
          rw [readAttachments_file, List.forall₂_cons_left_iff]
          simp only [attaches_file_iff]
          cases (disk.read path).run with
          | error error => simp
          | ok bytes =>
              show (readAttachments disk rest).run.map _ = _ ↔ _
              rw [map_eq_ok_iff]
              simp only [ih, Except.ok.injEq]
              constructor
              · rintro ⟨others, hothers, rfl⟩
                exact ⟨_, others, ⟨bytes, rfl, rfl⟩, hothers, rfl⟩
              · rintro ⟨_, others, ⟨_, rfl, rfl⟩, hothers, rfl⟩
                exact ⟨others, hothers, rfl⟩

end Prepared

/-! ## Payloads -/

/-- **`Carries disk body payload`** — this is the payload for the body. -/
inductive Carries (disk : Files Id) : Body → Payload → Prop
  | empty : Carries disk (.raw []) .empty
  | text {text : Text} (h : text ≠ []) : Carries disk (.raw text) (.text text)
  | urlEncoded (pairs : List (Text × Text)) :
      Carries disk (.form (mapValues .literal pairs)) (.urlEncoded pairs)
  | multipart {fields : List (Text × FieldValue)} {form : Multipart}
      (hother : ∃ field ∈ fields, isTextField field = false) (h : Divides disk fields form) :
      Carries disk (.form fields) (.multipart form)

section

variable {disk : Files Id} {body : Body}

theorem carries_empty_iff : Carries disk body .empty ↔ body = .raw [] := by
  constructor
  · rintro ⟨⟩
    rfl
  · rintro rfl
    exact .empty

theorem carries_text_iff {text : Text} :
    Carries disk body (.text text) ↔ body = .raw text ∧ text ≠ [] := by
  constructor
  · rintro ⟨⟩
    exact ⟨rfl, ‹_›⟩
  · rintro ⟨rfl, h⟩
    exact .text h

theorem carries_urlEncoded_iff {pairs : List (Text × Text)} :
    Carries disk body (.urlEncoded pairs) ↔ body = .form (mapValues .literal pairs) := by
  constructor
  · rintro ⟨⟩
    rfl
  · rintro rfl
    exact .urlEncoded pairs

theorem carries_multipart_iff {form : Multipart} :
    Carries disk body (.multipart form) ↔ ∃ fields, body = .form fields ∧
      (∃ field ∈ fields, isTextField field = false) ∧ Divides disk fields form := by
  constructor
  · rintro ⟨⟩
    exact ⟨_, rfl, ‹_›, ‹_›⟩
  · rintro ⟨fields, rfl, hother, h⟩
    exact .multipart hother h

end

namespace Prepared

variable {disk : Files Id}

/-- A form of texts alone has no attachments. -/
theorem readAttachments_mapValues (pairs : List (Text × Text)) :
    (readAttachments disk (mapValues .literal pairs)).run = .ok [] := by
  induction pairs with
  | nil => rfl
  | cons pair rest ih => exact ih

/-- A form without attachments goes on one line, and any other one in parts. -/
theorem carries_formPayload {fields : List (Text × FieldValue)} {attachments : List Attachment}
    (h : List.Forall₂ (Attaches disk) (fields.filter (! isTextField ·)) attachments) :
    Carries disk (.form fields) (formPayload (literalFields fields) attachments) := by
  cases attachments with
  | nil =>
      have hnone := List.forall₂_nil_right_iff.mp h
      have hall : fields.filter isTextField = fields := by
        rw [List.filter_eq_self]
        simpa using hnone
      rw [formPayload, carries_urlEncoded_iff, mapValues_literalFields, hall]
  | cons attachment others =>
      rw [formPayload, carries_multipart_iff]
      refine ⟨fields, rfl, ?_, (mapValues_literalFields fields).symm, h⟩
      obtain ⟨field, rest, -, -, hfilter⟩ := List.forall₂_cons_right_iff.mp h
      have hmem : field ∈ fields.filter (! isTextField ·) := by
        rw [hfilter]
        exact List.mem_cons_self
      obtain ⟨hfield, hother⟩ := List.mem_filter.mp hmem
      exact ⟨field, hfield, by simpa using hother⟩

/-- **The payload** is the one that the body carries. -/
theorem payloadOf_eq_ok_iff {body : Body} {payload : Payload} :
    (payloadOf disk body).run = .ok payload ↔ Carries disk body payload := by
  cases body with
  | raw text =>
      cases text with
      | nil =>
          constructor
          · rintro ⟨⟩
            exact .empty
          · intro h
            cases h with
            | empty => rfl
            | text hne => exact absurd rfl hne
      | cons c rest =>
          constructor
          · rintro ⟨⟩
            exact .text (List.cons_ne_nil c rest)
          · rintro ⟨⟩
            rfl
  | form fields =>
      rw [payloadOf_form, map_eq_ok_iff]
      constructor
      · rintro ⟨attachments, hread, rfl⟩
        exact carries_formPayload (readAttachments_eq_ok_iff.mp hread)
      · intro h
        cases h with
        | urlEncoded pairs =>
            refine ⟨[], readAttachments_mapValues pairs, ?_⟩
            rw [formPayload, literalFields_mapValues]
        | @multipart _ form hother hdivides =>
            refine ⟨form.attachments, readAttachments_eq_ok_iff.mpr hdivides.attachments, ?_⟩
            obtain ⟨field, hfield, hnot⟩ := hother
            rw [literalFields_eq_of_divides hdivides]
            obtain ⟨texts, attachments⟩ := form
            cases attachments with
            | nil =>
                -- the field would be one without attachment
                have hnone := List.forall₂_nil_right_iff.mp hdivides.attachments
                have hmem : field ∈ fields.filter (! isTextField ·) :=
                  List.mem_filter.mpr ⟨hfield, by simpa using hnot⟩
                rw [hnone] at hmem
                cases hmem
            | cons attachment others => rfl

/-- **A request that is prepared** keeps what it has, and carries the payload for its body. -/
theorem ofRequest_eq_ok_iff {request : Request} {prepared : Prepared} :
    (ofRequest disk request).run = .ok prepared ↔ prepared.method = request.method ∧
      prepared.url = request.url ∧ prepared.headers = request.headers ∧
        Carries disk request.body prepared.payload := by
  rw [ofRequest_eq, map_eq_ok_iff]
  obtain ⟨method, url, headers, payload⟩ := prepared
  simp only [payloadOf_eq_ok_iff, Prepared.mk.injEq]
  constructor
  · rintro ⟨_, hcarries, rfl, rfl, rfl, rfl⟩
    exact ⟨rfl, rfl, rfl, hcarries⟩
  · rintro ⟨rfl, rfl, rfl, hcarries⟩
    exact ⟨payload, hcarries, rfl, rfl, rfl, rfl⟩

/-- A payload is the one that is carried. -/
theorem payload_eq_iff {request : Request} {prepared : Prepared}
    (h : (ofRequest disk request).run = .ok prepared) (payload : Payload) :
    prepared.payload = payload ↔ Carries disk request.body payload := by
  obtain ⟨-, -, -, hcarries⟩ := ofRequest_eq_ok_iff.mp h
  rw [← payloadOf_eq_ok_iff] at hcarries ⊢
  rw [hcarries, Except.ok.injEq]

/-- **Preparing fails for a file that cannot be read**, and for nothing else. -/
theorem ofRequest_eq_error_iff {request : Request} {failure : Failure} :
    (ofRequest disk request).run = .error failure ↔
      ∃ path error, disk.FirstUnreadable request.body.paths path error ∧
        failure = .attachment path error := by
  rcases disk.readable_or_firstUnreadable request.body.paths with hall | ⟨path, error, hfirst⟩
  · obtain ⟨prepared, hprepared⟩ := ofRequest_of_readable hall
    rw [hprepared]
    constructor
    · intro h
      cases h
    · rintro ⟨path, error, hfirst, -⟩
      exact absurd hall hfirst.not_readable
  · constructor
    · intro h
      rw [ofRequest_of_unreadable hfirst] at h
      exact ⟨path, error, hfirst, (Except.error.inj h).symm⟩
    · rintro ⟨path, error, hfirst, rfl⟩
      exact ofRequest_of_unreadable hfirst

/-- **Preparing divides a form without loss.** A request cannot be prepared if and only if some file of its
form cannot be read, and the failure names the first of these in form order. If it can, the method, the URL
and the headers stay as they are, and the payload is nothing if and only if the body is the empty text, the
text of a body of raw text that is not empty, the names and texts of a form that holds nothing but texts, and
otherwise the fields of the form divided among texts and attachments, as many together as there are
fields. -/
theorem ofRequest_exact (disk : Files Id) (request : Request) :
    ((∃ failure, (ofRequest disk request).run = .error failure) ↔
      ∃ path ∈ request.body.paths, ¬ disk.Readable path) ∧
    (∀ failure, (ofRequest disk request).run = .error failure ↔
      ∃ path error, disk.FirstUnreadable request.body.paths path error ∧
        failure = .attachment path error) ∧
    ∀ prepared, (ofRequest disk request).run = .ok prepared →
      prepared.method = request.method ∧ prepared.url = request.url ∧
      prepared.headers = request.headers ∧
      (prepared.payload = .empty ↔ request.body = .raw []) ∧
      (∀ text, prepared.payload = .text text ↔ request.body = .raw text ∧ text ≠ []) ∧
      (∀ pairs, prepared.payload = .urlEncoded pairs ↔
        request.body = .form (mapValues .literal pairs)) ∧
      (∀ form, prepared.payload = .multipart form ↔ ∃ fields, request.body = .form fields ∧
        (∃ field ∈ fields, isTextField field = false) ∧ Divides disk fields form) ∧
      ∀ form fields, prepared.payload = .multipart form → request.body = .form fields →
        form.fields.length + form.attachments.length = fields.length := by
  refine ⟨?_, fun failure => ofRequest_eq_error_iff, ?_⟩
  · simp only [ofRequest_eq_error_iff]
    rcases disk.readable_or_firstUnreadable request.body.paths with hall | ⟨path, error, hfirst⟩
    · constructor
      · rintro ⟨_, path, error, hfirst, -⟩
        exact absurd hall hfirst.not_readable
      · rintro ⟨path, hpath, hnot⟩
        exact absurd (hall path hpath) hnot
    · constructor
      · intro _
        simpa using hfirst.not_readable
      · intro _
        exact ⟨_, path, error, hfirst, rfl⟩
  · intro prepared h
    obtain ⟨hmethod, hurl, hheaders, -⟩ := ofRequest_eq_ok_iff.mp h
    simp only [payload_eq_iff h, carries_empty_iff, carries_text_iff, carries_urlEncoded_iff,
      carries_multipart_iff, implies_true, true_and]
    refine ⟨hmethod, hurl, hheaders, ?_⟩
    rintro form fields ⟨_, hbody, -, hdivides⟩ hfields
    obtain rfl := Body.form.inj (hbody.symm.trans hfields)
    exact hdivides.length

/-- Fields of all three kinds that alternate, with a name in two of them, and a path that names no file. -/
theorem ofRequest_exact_alternating :
    let disk : Files Id := ⟨fun _ => .ok [0, 255], fun _ => true⟩
    let fields := [(['f'], .file "d/..".toList), (['x'], .literal ['1']), (['c'], .content ['é']),
      (['x'], .literal []), (['g'], .file "d/n.bin/".toList)]
    let request : Request := ⟨.post, "http://h".toList, [], .form fields⟩
    let form : Multipart := ⟨[(['x'], ['1']), (['x'], [])],
      [⟨['f'], "d/..".toList, [0, 255]⟩, ⟨['c'], ['c'], [0xC3, 0xA9]⟩, ⟨['g'], "n.bin".toList, [0, 255]⟩]⟩
    (ofRequest disk request).run = .ok ⟨.post, "http://h".toList, [], .multipart form⟩ ∧
      Divides disk fields form ∧ form.fields.length + form.attachments.length = fields.length := by
  intro disk fields request form
  have hprepared : (ofRequest disk request).run =
      .ok ⟨.post, "http://h".toList, [], .multipart form⟩ := by decide +kernel
  obtain ⟨-, -, hexact⟩ := ofRequest_exact disk request
  obtain ⟨-, -, -, -, -, -, hmultipart, hcount⟩ := hexact _ hprepared
  obtain ⟨_, hfields, -, hdivides⟩ := (hmultipart form).mp rfl
  obtain rfl := Body.form.inj hfields
  exact ⟨hprepared, hdivides, hcount form fields rfl rfl⟩

-- two files are missing, and the first of them is named
example :
    let disk : Files Id := ⟨fun path => if path = ['a'] then .ok [] else .error .notFound, fun _ => true⟩
    let fields := [(['x'], .file ['a']), (['y'], .file ['b']), (['z'], .file ['c'])]
    (ofRequest disk ⟨.post, ['u'], [], .form fields⟩).run = .error (.attachment ['b'] .notFound) := by
  decide +kernel

end Prepared

end PlainRequest
