/-
# PlainRequest.Failure — what can go wrong with a request

A failure is known by its cause. It is met while a request is read, before anything is sent; or
while it is sent; or it concerns the URL or the settings. `Failure.message` tells it in one text, and
`Failure.causes` lists what lies behind it, the nearest cause first.
-/

import PlainRequest.Curl.Call
import PlainRequest.Request.Head
import PlainRequest.Settings.Reader
import PlainRequest.Url.Basic

namespace PlainRequest

/-- Why a prepared request is not answered. -/
inductive SendFault
  /-- A header name is none. -/
  | headerName
  /-- A header value holds a control character. -/
  | headerValue
  /-- Requests are not sent to URLs of this scheme. -/
  | scheme (url : Text)
  /-- The URL cannot stand in a message. -/
  | address (url : Text)
  /-- There was no answer; the causes are the network's. -/
  | exchange (url : Text) (causes : List Text)
  deriving DecidableEq, Repr

namespace SendFault

/-- A text and the URL it is about. -/
def about (text : String) (url : Text) : Text :=
  text.toList ++ " for url (".toList ++ url ++ [')']

/-- The text of a fault. -/
def message : SendFault → Text
  | headerName | headerValue => "builder error".toList
  | scheme url | address url => about "builder error" url
  | exchange url _ => about "error sending request" url

/-- What lies behind a fault. -/
def causes : SendFault → List Text
  | headerName => ["invalid HTTP header name".toList]
  | headerValue => ["failed to parse header value".toList]
  | scheme _ => ["URL scheme is not allowed".toList]
  | address _ => ["Parsed Url is not a valid Uri".toList]
  | exchange _ causes => causes

end SendFault

/-- What can go wrong with a request. -/
inductive Failure
  /-- The block describes no request. -/
  | block (error : BlockError)
  /-- A curl command cannot be written or read. -/
  | curl (fault : Curl.CommandFault)
  /-- The file of an attachment cannot be read. -/
  | attachment (path : Text) (error : ReadError)
  /-- The target is no URL. -/
  | url (text : Text) (error : UrlError)
  /-- The request is not answered. -/
  | sending (fault : SendFault)
  /-- The network fails, in its own words. -/
  | network (text : Text)
  /-- There are no settings. -/
  | settings (error : SettingsError)
  deriving DecidableEq, Repr

namespace Failure

/-- The text of a failure. -/
def message : Failure → Text
  | block error => error.message
  | curl fault => "Malformed curl command: ".toList ++ fault.message
  | attachment path error =>
      "Cannot read attachment '".toList ++ path ++ "': ".toList ++ error.message
  | url text error =>
      "Invalid URL: ".toList ++ text ++ " (".toList ++ error.message ++ [')']
  | sending fault => "HTTP request failed: ".toList ++ fault.message
  | network text => "Network error: ".toList ++ text
  | settings error => "Config error: ".toList ++ error.message

/-- What lies behind a failure, the nearest cause first. -/
def causes : Failure → List Text
  | attachment _ error => [error.message]
  | sending fault => fault.message :: fault.causes
  | _ => []

/-- Was the failure met while the request was read, before anything was sent? -/
def isParseError : Failure → Bool
  | block _ | curl _ | attachment _ _ => true
  | _ => false

/-- Was the failure met while the request was sent? -/
def isTransportError : Failure → Bool
  | sending _ | network _ => true
  | _ => false

end Failure

/-! ## Steps that do not fail -/

section

variable {ε ε' α β : Type}

/-- Two steps in turn do not fail if neither does. -/
theorem bind_eq_ok_iff {first : Except ε α} {next : α → Except ε β} {result : β} :
    first.bind next = .ok result ↔ ∃ value, first = .ok value ∧ next value = .ok result := by
  cases first <;> simp [Except.bind]

theorem map_eq_ok_iff {first : Except ε α} {f : α → β} {result : β} :
    first.map f = .ok result ↔ ∃ value, first = .ok value ∧ f value = result := by
  cases first <;> simp [Except.map]

theorem mapError_eq_ok_iff {first : Except ε α} {f : ε → ε'} {result : α} :
    first.mapError f = .ok result ↔ first = .ok result := by
  cases first with
  | error error =>
      constructor
      · intro h
        cases h
      · intro h
        cases h
  | ok value =>
      show Except.ok value = .ok result ↔ _
      rw [Except.ok.injEq, Except.ok.injEq]

end

end PlainRequest
