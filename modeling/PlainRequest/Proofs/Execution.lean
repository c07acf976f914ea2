/-
# PlainRequest.Proofs.Execution — what sending a block does, event by event

Whatever a block says, sending it does little to the world: it reads files, and it may hand a request to
the transport. Here both are written down as they happen, over a file system and a transport that are
any functions at all. The events of a run are then the reads of the files that the form names, in form
order up to the first that fails, and behind them one call of the transport if there was nothing to
fail, and none if there was. What comes out is the answer of that call, rendered, or the failure that
came before it.
-/

import PlainRequest.Execution
import PlainRequest.Proofs.Http.Attachments

namespace PlainRequest

/-! ## Writing down what happens -/

/-- What sending a block may do to the world. -/
inductive Event
  /-- The file at a path is read. -/
  | read (path : Text)
  /-- A request is handed to the transport. -/
  | send (prepared : Prepared)
  deriving DecidableEq, Repr

/-- Computations that write down what they do. -/
abbrev Noting := StateM (List Event)

namespace Noting

/-- Write down an event. -/
def note (event : Event) : Noting Unit := modify (· ++ [event])

/-- **`computation.after events`** — the result of a computation, and the events in the end, when
`events` have happened before it. -/
def after {α : Type} (computation : Noting α) (events : List Event) : α × List Event :=
  (StateT.run computation events).run

@[simp] theorem after_pure {α : Type} (value : α) (events : List Event) :
    after (pure value) events = (value, events) := rfl

@[simp] theorem after_bind {α β : Type} (first : Noting α) (next : α → Noting β)
    (events : List Event) :
    after (first >>= next) events = after (next (first.after events).1) (first.after events).2 := rfl

@[simp] theorem after_note (event : Event) (events : List Event) :
    after (note event) events = ((), events ++ [event]) := rfl

end Noting

open Noting

/-- A file system whose reads are written down. -/
def Files.noting (disk : Files Id) : Files Noting where
  read path := do
    note (.read path)
    pure (disk.read path).run
  isPresent path := pure (disk.isPresent path).run

/-- The transport that gives these answers and writes down what it is handed. -/
def Transport.noting (answer : Prepared → Except Failure Response) : Transport Noting :=
  fun prepared => do
    note (.send prepared)
    pure (answer prepared)

/-! ## The files that are tried -/

/-- The paths up to the first that cannot be read, which is tried as well. -/
def Files.tried (disk : Files Id) : List Text → List Text
  | [] => []
  | path :: rest =>
      match (disk.read path).run with
      | .error _ => [path]
      | .ok _ => path :: disk.tried rest

namespace Files

variable {disk : Files Id}

/-- Where all can be read, all are tried. -/
theorem tried_of_readable {paths : List Text} (h : ∀ path ∈ paths, disk.Readable path) :
    disk.tried paths = paths := by
  induction paths with
  | nil => rfl
  | cons path rest ih =>
      obtain ⟨bytes, hbytes⟩ := h path (by simp)
      have hrest := ih fun other hmem => h other (List.mem_cons_of_mem _ hmem)
      rw [tried, hbytes]
      show path :: disk.tried rest = path :: rest
      rw [hrest]

end Files

namespace Prepared

variable (disk : Files Id)

/-- **Reading attachments** reads the files of the form up to the first that cannot be read, and writing
the reads down changes nothing else. -/
theorem readAttachments_noting (fields : List (Text × FieldValue)) (events : List Event) :
    (readAttachments disk.noting fields).after events =
      ((readAttachments disk fields).run, events ++ (disk.tried (pathsOf fields)).map .read) := by
  induction fields generalizing events with
  | nil => simp [readAttachments, pathsOf, Files.tried]
  | cons field rest ih =>
      obtain ⟨name, value⟩ := field
      cases value with
      | literal text => exact ih events
      | content text =>
          show (((readAttachments disk.noting rest).after events).1.map _,
            ((readAttachments disk.noting rest).after events).2) = _
          rw [ih, readAttachments_content]
          rfl
      | file path =>
          rw [pathsOf_file, readAttachments_file, Files.tried, readAttachments]
          simp only [Files.noting, after_bind, after_note, after_pure]
          -- a read that fails is the last one
          cases (disk.read path).run with
          | error error => rfl
          | ok bytes =>
              show (((readAttachments disk.noting rest).after (events ++ [.read path])).1.map _,
                ((readAttachments disk.noting rest).after (events ++ [.read path])).2) = _
              rw [ih, List.append_assoc]
              rfl

theorem ofRequest_noting (request : Request) (events : List Event) :
    (ofRequest disk.noting request).after events =
      ((ofRequest disk request).run, events ++ (disk.tried request.body.paths).map .read) := by
  obtain ⟨method, url, headers, body⟩ := request
  cases body with
  | raw text =>
      cases text <;> simp [ofRequest, payloadOf, Body.paths, Files.tried]
  | form fields =>
      rw [ofRequest_eq, payloadOf_form]
      simp only [ofRequest, payloadOf, after_bind, after_pure, readAttachments_noting]
      rfl

end Prepared

/-! ## Sending -/

/-- **`sending disk answer settings document block`** — what sending a block comes to and what happened
on the way, over a file system and a transport that gives these answers. -/
def sending (disk : Files Id) (answer : Prepared → Except Failure Response) (settings : JsonSettings)
    (document block : List Text) : Except Failure Rendered × List Event :=
  (execute disk.noting (Transport.noting answer) settings document block).after []

section

variable {disk : Files Id} {answer : Prepared → Except Failure Response} {settings : JsonSettings}
variable {document block : List Text}

theorem sending_of_error {error : BlockError}
    (h : Request.ofBlock (Table.resolve document block) block = .error error) :
    sending disk answer settings document block = (.error (.block error), []) := by
  simp [sending, execute, Prepared.ofBlock, h]

/-- A block that describes a request: its files are tried, and if it can be prepared, it is sent. -/
theorem sending_of_ok {request : Request}
    (h : Request.ofBlock (Table.resolve document block) block = .ok request) :
    sending disk answer settings document block =
      match (Prepared.ofRequest disk request).run with
      | .error failure => (.error failure, (disk.tried request.body.paths).map .read)
      | .ok prepared =>
          ((answer prepared).map (Rendered.ofResponse settings),
            (disk.tried request.body.paths).map .read ++ [.send prepared]) := by
  simp only [sending, execute, Prepared.ofBlock, h, after_bind, Prepared.ofRequest_noting,
    List.nil_append]
  cases (Prepared.ofRequest disk request).run with
  | error failure => rfl
  | ok prepared => rfl

/-- If all of its files can be read, all are read, and the prepared request is sent. -/
theorem sending_of_readable {request : Request}
    (h : Request.ofBlock (Table.resolve document block) block = .ok request)
    (hall : ∀ path ∈ request.body.paths, disk.Readable path) :
    ∃ prepared, (Prepared.ofRequest disk request).run = .ok prepared ∧
      sending disk answer settings document block =
        ((answer prepared).map (Rendered.ofResponse settings),
          request.body.paths.map .read ++ [.send prepared]) := by
  obtain ⟨prepared, hprepared⟩ := Prepared.ofRequest_of_readable hall
  refine ⟨prepared, hprepared, ?_⟩
  rw [sending_of_ok h, hprepared, Files.tried_of_readable hall]

/-- If one cannot be read, the first of these is the failure, and nothing is sent. -/
theorem sending_of_unreadable {request : Request} {path : Text} {error : ReadError}
    (h : Request.ofBlock (Table.resolve document block) block = .ok request)
    (hfirst : disk.FirstUnreadable request.body.paths path error) :
    sending disk answer settings document block =
      (.error (.attachment path error), (disk.tried request.body.paths).map .read) := by
  rw [sending_of_ok h, Prepared.ofRequest_of_unreadable hfirst]

end

/-- **`Sendable disk document block`** — the block describes a request, and every file that its form
names can be read. -/
def Sendable (disk : Files Id) (document block : List Text) : Prop :=
  ∃ request, Request.ofBlock (Table.resolve document block) block = .ok request ∧
    ∀ path ∈ request.body.paths, disk.Readable path

/-- **A request is sent once, or a local failure is the result.** If the block describes a request and
every file of its form can be read, then the files are read in form order, and behind that the transport
is called, once, with the prepared request; a failure that it answers is the result as it is, and a
response is rendered, whatever its body. Otherwise the transport is not called, and the result is a
failure from before sending: why the block describes no request, or the first file of the form that
cannot be read. -/
theorem sending_once (disk : Files Id) (answer : Prepared → Except Failure Response)
    (settings : JsonSettings) (document block : List Text) :
    (Sendable disk document block ∧
      ∃ request prepared,
        Request.ofBlock (Table.resolve document block) block = .ok request ∧
        (Prepared.ofRequest disk request).run = .ok prepared ∧
        (sending disk answer settings document block).2 =
          request.body.paths.map .read ++ [.send prepared] ∧
        (∀ failure, answer prepared = .error failure →
          (sending disk answer settings document block).1 = .error failure) ∧
        ∀ response, answer prepared = .ok response →
          (sending disk answer settings document block).1 =
            .ok (Rendered.ofResponse settings response)) ∨
    (¬ Sendable disk document block ∧
      (∀ prepared, .send prepared ∉ (sending disk answer settings document block).2) ∧
      ∃ failure, (sending disk answer settings document block).1 = .error failure ∧
        failure.isParseError = true ∧
        ((∃ error, Request.ofBlock (Table.resolve document block) block = .error error ∧
            failure = .block error) ∨
          ∃ request path error,
            Request.ofBlock (Table.resolve document block) block = .ok request ∧
            disk.FirstUnreadable request.body.paths path error ∧
            failure = .attachment path error)) := by
  cases hrequest : Request.ofBlock (Table.resolve document block) block with
  | error error =>
      right
      rw [sending_of_error hrequest]
      refine ⟨?_, by simp, _, rfl, rfl, .inl ⟨error, rfl, rfl⟩⟩
      rintro ⟨request, hok, -⟩
      rw [hrequest] at hok
      cases hok
  | ok request =>
      rcases disk.readable_or_firstUnreadable request.body.paths with hall | ⟨path, error, hfirst⟩
      · left
        obtain ⟨prepared, hprepared, hsending⟩ := sending_of_readable hrequest hall
        rw [hsending]
        refine ⟨⟨request, hrequest, hall⟩, request, prepared, rfl, hprepared, rfl, ?_, ?_⟩
        · intro failure hanswer
          show (answer prepared).map _ = _
          rw [hanswer]
          rfl
        · intro response hanswer
          show (answer prepared).map _ = _
          rw [hanswer]
          rfl
      · right
        rw [sending_of_unreadable hrequest hfirst]
        refine ⟨?_, by simp, _, rfl, rfl, .inr ⟨request, path, error, rfl, hfirst, rfl⟩⟩
        rintro ⟨other, hother, hall⟩
        obtain rfl := Except.ok.inj (hrequest.symm.trans hother)
        exact hfirst.not_readable hall

-- the second file is missing, so the third is not tried and nothing is sent
example :
    (sending ⟨fun path => if path = ['a'] then .ok [] else .error .notFound, fun _ => true⟩
        (fun _ => .error (.network [])) {} []
        ["POST h".toList, "x=!file(a)".toList, "y=!file(b)".toList, "z=!file(c)".toList]).2 =
      [.read ['a'], .read ['b']] := by
  decide +kernel

end PlainRequest
