/-
# PlainRequest.Settings — what can be set

How requests are sent and how JSON responses are shown, each with a default.
-/

import PlainRequest.Text.Basic

namespace PlainRequest

/-- How requests are sent. -/
structure HttpSettings where
  /-- Check the certificates of servers. -/
  verifyCertificates : Bool := true
  /-- Seconds until a request is given up. -/
  timeoutSeconds : Nat := 30
  deriving DecidableEq, Repr

/-- How JSON responses are shown. -/
structure JsonSettings where
  /-- Write characters outside ASCII as escapes. -/
  escapeNonAscii : Bool := true
  /-- Spaces for each level of depth. -/
  indentWidth : Nat := 2
  /-- The language to show JSON in. -/
  language : Text := "json".toList
  deriving DecidableEq, Repr

/-- All settings. -/
structure Settings where
  http : HttpSettings := {}
  json : JsonSettings := {}
  deriving DecidableEq, Repr

end PlainRequest
