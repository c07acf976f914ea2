/-
# PlainRequest.CommandLine.Machine — the machine as a host

The files, directories, standard input and network of the machine that the program runs on. Messages
are sent over plain TCP connections, one for each, which the server closes; a server that only
speaks TLS is not reached. No redirect is followed: an answer that names another place is the answer,
and is shown with its status and headers.
-/

import PlainRequest.CommandLine.Outcome
import PlainRequest.Http.Framing
import Std.Async.DNS
import Std.Async.TCP
import Std.Async.Timer

namespace PlainRequest.CommandLine.Machine

open Std.Async Text

/-! ## Files -/

/-- The read error for an error of the system. -/
def readErrorOf (error : IO.Error) : ReadError :=
  match error with
  | .noFileOrDirectory .. => .notFound
  | .inappropriateType none .. => .isDirectory
  | .inappropriateType (some _) .. => .notDirectory
  | .invalidArgument _ 22 _ => .nulInPath
  | .invalidArgument (some _) _ _ => .nameTooLong
  | other => .other (toString other).toList

/-- Run an action that may fail with a read error. -/
def reading {α : Type} (action : IO α) : IO (Except ReadError α) := do
  try
    let value ← action
    pure (.ok value)
  catch error => pure (.error (readErrorOf error))

/-- The files of the machine. -/
def files : Files IO :=
  { read := fun path => reading do
      let content ← IO.FS.readBinFile (String.ofList path)
      pure content.toList
    isPresent := fun path => do
      try
        let _ ← IO.FS.realPath (String.ofList path)
        pure true
      catch _ => pure false }

/-- Read a stream to its end. -/
partial def readAll (stream : IO.FS.Stream) (read : ByteArray) : IO ByteArray := do
  let chunk ← stream.read 65536
  if chunk.isEmpty then pure read else readAll stream (read ++ chunk)

/-- All of the standard input. -/
def input : IO (Except ReadError Bytes) := reading do
  let stream ← IO.getStdin
  let content ← readAll stream .empty
  pure content.toList

/-! ## Network -/

/-- The causes of a connection that is not made. -/
def notConnected (error : IO.Error) : List Text :=
  ["client error (Connect)".toList, "tcp connect error".toList, (toString error).toList]

/-- The causes of an answer that is not understood. -/
def notUnderstood : List Text :=
  ["client error (SendRequest)".toList, "the answer is no message".toList]

/-- The addresses of a host. -/
def addressesOf (host : UrlHost) : Async (Array Std.Net.IPAddr) :=
  match host with
  | .ipv4 address =>
      let part := fun weight : Nat => UInt8.ofNat (address / weight)
      pure #[.v4 (.ofParts (part 16777216) (part 65536) (part 256) (part 1))]
  | .ipv6 pieces =>
      let piece := fun index : Nat => UInt16.ofNat (pieces.getD index 0)
      pure #[.v6 (.ofParts (piece 0) (piece 1) (piece 2) (piece 3) (piece 4) (piece 5) (piece 6)
        (piece 7))]
  | .named name => DNS.getAddrInfo (String.ofList name) ""

/-- An address with a port. -/
def socketAddress (port : UInt16) : Std.Net.IPAddr → Std.Net.SocketAddress
  | .v4 addr => .v4 { addr, port }
  | .v6 addr => .v6 { addr, port }

/-- Connect to the first address that answers. -/
def connect (port : UInt16) : List Std.Net.IPAddr → Async TCP.Socket.Client
  | [] => throw (.userError "no address")
  | address :: others => do
      let client ← TCP.Socket.Client.mk
      try
        client.connect (socketAddress port address)
        pure client
      catch error => if others.isEmpty then throw error else connect port others

/-- Receive all that is sent. -/
partial def receiveAll (client : TCP.Socket.Client) (received : ByteArray) : Async ByteArray := do
  match ← client.recv? 65536 with
  | none => pure received
  | some chunk => receiveAll client (received ++ chunk)

/-- The port of a URL, its default one included. -/
def portOf (url : Url) : Nat :=
  ((url.authority.bind Authority.port).or (defaultPorts.lookup url.scheme)).getD 80

/-- Send a message and receive the bytes of the answer. -/
def converse (message : WireRequest) : Async ByteArray := do
  let host := (message.url.authority.map Authority.host).getD (.named [])
  let addresses ← addressesOf host
  let client ← connect (UInt16.ofNat (portOf message.url)) addresses.toList
  client.send ⟨message.toBytes.toArray⟩
  receiveAll client .empty

/-- An error after so many seconds. -/
def timeOut (seconds : Nat) : Async ByteArray := do
  sleep (.ofNat (seconds * 1000))
  throw (.userError "operation timed out")

/-- Send a message and receive the answer, unless that takes too long. -/
def exchange (settings : HttpSettings) (message : WireRequest) :
    IO (Except (List Text) RawResponse) := do
  if message.url.scheme ≠ "http".toList then
    return .error ["client error (Connect)".toList, "TLS is not available".toList]
  try
    let received ← (Async.race (converse message) (timeOut settings.timeoutSeconds)).block
    match RawResponse.ofBytes? message.method received.toList with
    | some answer => pure (.ok answer)
    | none => pure (.error notUnderstood)
  catch error => pure (.error (notConnected error))

/-- A boundary of random digits. -/
def freshBoundary : IO Text := do
  let bytes ← IO.getRandomBytes 32
  pure (bytes.toList.flatMap fun b => [hexDigit (b.toNat / 16), hexDigit (b.toNat % 16)])

/-- The network of the machine. -/
def network (settings : HttpSettings) : Network IO :=
  { freshBoundary, exchange := exchange settings }

/-! ## Host -/

/-- The machine. -/
def host : Host IO :=
  { files
    workingDirectory := do
      let directory ← IO.currentDir
      pure (toString directory).toList
    homeDirectory := do
      let home ← IO.getEnv "HOME"
      pure (home.map String.toList)
    input
    network }

end PlainRequest.CommandLine.Machine
