/-
# PlainRequest.Proofs.Http.Attachments — which file decides whether a request can be prepared

A form names files, in form order, and they are read in that order up to the first that cannot be
read. Over a file system that answers every read in one way, a request is prepared if and only if all
of them can be read, and otherwise the failure is about the first that cannot, whatever the other
fields are. A body of raw text names no file, so it is always prepared.
-/

import PlainRequest.Http.Prepared

namespace PlainRequest

/-! ## The files of a body -/

/-- The path of a field that names a file. -/
def FieldValue.path? : FieldValue → Option Text
  | file path => some path
  | _ => none

/-- The paths that form fields name, in form order. -/
def pathsOf (fields : List (Text × FieldValue)) : List Text := fields.filterMap (·.2.path?)

/-- The paths that a body names, in form order. -/
def Body.paths : Body → List Text
  | raw _ => []
  | form fields => pathsOf fields

theorem pathsOf_file (field path : Text) (rest : List (Text × FieldValue)) :
    pathsOf ((field, .file path) :: rest) = path :: pathsOf rest := rfl

namespace Files

variable (disk : Files Id)

/-- **`disk.Readable path`** — a read of the path gives bytes. -/
def Readable (path : Text) : Prop := ∃ bytes, (disk.read path).run = .ok bytes

/-- **`disk.FirstUnreadable paths path error`** — of the paths in order, `path` is the first that cannot
be read, for the reason `error`. -/
def FirstUnreadable (paths : List Text) (path : Text) (error : ReadError) : Prop :=
  ∃ before after, paths = before ++ path :: after ∧ (∀ earlier ∈ before, disk.Readable earlier) ∧
    (disk.read path).run = .error error

variable {disk}

theorem FirstUnreadable.cons {paths : List Text} {path first : Text} {error : ReadError}
    (hfirst : disk.Readable first) (h : disk.FirstUnreadable paths path error) :
    disk.FirstUnreadable (first :: paths) path error := by
  obtain ⟨before, after, rfl, hbefore, hpath⟩ := h
  refine ⟨first :: before, after, rfl, ?_, hpath⟩
  intro earlier hmem
  rcases List.mem_cons.mp hmem with rfl | hmem
  · exact hfirst
  · exact hbefore earlier hmem

/-- A path that comes first among those that cannot be read is one that cannot be read. -/
theorem FirstUnreadable.not_readable {paths : List Text} {path : Text} {error : ReadError}
    (h : disk.FirstUnreadable paths path error) : ¬ ∀ path ∈ paths, disk.Readable path := by
  obtain ⟨before, after, rfl, -, hpath⟩ := h
  intro hall
  obtain ⟨bytes, hbytes⟩ := hall path (by simp)
  rw [hpath] at hbytes
  cases hbytes

/-- **All of the paths can be read, or one is the first that cannot.** -/
theorem readable_or_firstUnreadable (disk : Files Id) (paths : List Text) :
    (∀ path ∈ paths, disk.Readable path) ∨
      ∃ path error, disk.FirstUnreadable paths path error := by
  induction paths with
  | nil => exact .inl (by simp)
  | cons first rest ih =>
      cases hfirst : (disk.read first).run with
      | error error => exact .inr ⟨first, error, [], rest, rfl, by simp, hfirst⟩
      | ok bytes =>
          have hreadable : disk.Readable first := ⟨bytes, hfirst⟩
          rcases ih with hrest | ⟨path, error, hrest⟩
          · refine .inl fun path hmem => ?_
            rcases List.mem_cons.mp hmem with rfl | hmem
            · exact hreadable
            · exact hrest path hmem
          · exact .inr ⟨path, error, hrest.cons hreadable⟩

end Files

/-! ## Preparing a request -/

namespace Prepared

variable {disk : Files Id}

theorem readAttachments_content (field text : Text) (rest : List (Text × FieldValue)) :
    (readAttachments disk ((field, .content text) :: rest)).run =
      (readAttachments disk rest).run.map (contentAttachment field text :: ·) := rfl

theorem readAttachments_file (field path : Text) (rest : List (Text × FieldValue)) :
    (readAttachments disk ((field, .file path) :: rest)).run =
      match (disk.read path).run with
      | .error error => .error (.attachment path error)
      | .ok bytes => (readAttachments disk rest).run.map (fileAttachment field path bytes :: ·) := by
  show (match (disk.read path).run with | .error _ => _ | .ok _ => _ : Id _).run = _
  cases (disk.read path).run <;> rfl

/-- If every file of the form can be read, the attachments are. -/
theorem readAttachments_of_readable {fields : List (Text × FieldValue)}
    (h : ∀ path ∈ pathsOf fields, disk.Readable path) :
    ∃ attachments, (readAttachments disk fields).run = .ok attachments := by
  induction fields with
  | nil => exact ⟨[], rfl⟩
  | cons field rest ih =>
      obtain ⟨name, value⟩ := field
      cases value with
      | literal text => exact ih h
      | content text =>
          obtain ⟨others, hothers⟩ := ih h
          rw [readAttachments_content, hothers]
          exact ⟨_, rfl⟩
      | file path =>
          rw [pathsOf_file] at h
          obtain ⟨bytes, hbytes⟩ := h path (by simp)
          obtain ⟨others, hothers⟩ := ih fun other hmem => h other (List.mem_cons_of_mem _ hmem)
          rw [readAttachments_file, hbytes, hothers]
          exact ⟨_, rfl⟩

/-- **The first file that cannot be read is the failure.** -/
theorem readAttachments_of_unreadable {fields : List (Text × FieldValue)} {path : Text}
    {error : ReadError} (h : disk.FirstUnreadable (pathsOf fields) path error) :
    (readAttachments disk fields).run = .error (.attachment path error) := by
  induction fields with
  | nil =>
      obtain ⟨before, after, hpaths, -⟩ := h
      simp [pathsOf] at hpaths
  | cons field rest ih =>
      obtain ⟨name, value⟩ := field
      cases value with
      | literal text => exact ih h
      | content text =>
          rw [readAttachments_content, ih h]
          rfl
      | file first =>
          rw [pathsOf_file] at h
          obtain ⟨before, after, hpaths, hbefore, hpath⟩ := h
          rw [readAttachments_file]
          cases before with
          | nil =>
              -- the file of this field is the one
              obtain ⟨rfl, -⟩ := List.cons.inj hpaths
              rw [hpath]
          | cons earlier before =>
              obtain ⟨rfl, hrest⟩ := List.cons.inj hpaths
              obtain ⟨bytes, hbytes⟩ := hbefore first (by simp)
              have hlater := ih ⟨before, after, hrest,
                fun other hmem => hbefore other (List.mem_cons_of_mem _ hmem), hpath⟩
              rw [hbytes, hlater]
              rfl

theorem ofRequest_eq (files : Files Id) (request : Request) :
    (ofRequest files request).run =
      (payloadOf files request.body).run.map fun payload =>
        ⟨request.method, request.url, request.headers, payload⟩ := rfl

theorem payloadOf_form (fields : List (Text × FieldValue)) :
    (payloadOf disk (.form fields)).run =
      (readAttachments disk fields).run.map (formPayload (literalFields fields)) := rfl

/-- A request all of whose files can be read is prepared. -/
theorem ofRequest_of_readable {request : Request}
    (h : ∀ path ∈ request.body.paths, disk.Readable path) :
    ∃ prepared, (ofRequest disk request).run = .ok prepared := by
  rw [ofRequest_eq]
  cases hbody : request.body with
  | raw text => cases text <;> exact ⟨_, rfl⟩
  | form fields =>
      rw [hbody] at h
      obtain ⟨attachments, hread⟩ := readAttachments_of_readable h
      rw [payloadOf_form, hread]
      exact ⟨_, rfl⟩

/-- A request with a file that cannot be read is not prepared, because of the first of them. -/
theorem ofRequest_of_unreadable {request : Request} {path : Text} {error : ReadError}
    (h : disk.FirstUnreadable request.body.paths path error) :
    (ofRequest disk request).run = .error (.attachment path error) := by
  rw [ofRequest_eq]
  cases hbody : request.body with
  | raw text =>
      rw [hbody] at h
      obtain ⟨before, after, hpaths, -⟩ := h
      simp [Body.paths] at hpaths
  | form fields =>
      rw [hbody] at h
      rw [payloadOf_form, readAttachments_of_unreadable h]
      rfl

end Prepared

end PlainRequest
