/-
# PlainRequest.Execution — what can be done with a block

A block is sent: its variables are replaced, it is read as a request, the request is prepared, sent
once and the response rendered. Nothing is sent if any step before fails, and no response makes
rendering fail. Or a block becomes a curl command.

What sends is a transport: it takes a prepared request and gives a response or a failure. The one for
a network sends the message for the request, at most once, and reads the answer as text.
-/

import PlainRequest.Curl.Command
import PlainRequest.Http.Rendered
import PlainRequest.Http.Wire

namespace PlainRequest

/-! ## Transports -/

/-- What sends prepared requests. -/
abbrev Transport (m : Type → Type) := Prepared → m (Except Failure Response)

/-- A network to send messages over. -/
structure Network (m : Type → Type) where
  /-- A text that separates the parts of a body and occurs in none of them. -/
  freshBoundary : m Text
  /-- Send a message; the answer, or the causes why there is none. -/
  exchange : WireRequest → m (Except (List Text) RawResponse)

/-- Send prepared requests over a network. -/
def Network.toTransport {m : Type → Type} [Monad m] (network : Network m) : Transport m :=
  fun prepared => do
    let boundary ← network.freshBoundary
    match WireRequest.ofPrepared boundary prepared with
    | .error failure => pure (.error failure)
    | .ok message =>
        match ← network.exchange message with
        | .error causes => pure (.error (.sending (.exchange message.url.toText causes)))
        | .ok raw => pure (.ok (Response.ofRaw raw))

/-! ## Blocks -/

/-- The prepared request for a block. -/
def Prepared.ofBlock {m : Type → Type} [Monad m] (files : Files m) (document block : List Text) :
    m (Except Failure Prepared) :=
  match Request.ofBlock (Table.resolve document block) block with
  | .error error => pure (.error (.block error))
  | .ok request => Prepared.ofRequest files request

/-- Send a block and render the response. -/
def execute {m : Type → Type} [Monad m] (files : Files m) (transport : Transport m)
    (settings : JsonSettings) (document block : List Text) : m (Except Failure Rendered) := do
  match ← Prepared.ofBlock files document block with
  | .error failure => pure (.error failure)
  | .ok prepared =>
      let answer ← transport prepared
      pure (answer.map (Rendered.ofResponse settings))

/-- The curl command for a block of a document. -/
def curlCommand (document block : List Text) : Except Failure Text :=
  Curl.ofBlock (Table.resolve document block) block

end PlainRequest
