/-
# PlainRequest.Url — the parts of a URL and its normal spelling

A URL has a scheme, mostly an authority, a path, and perhaps a query and a fragment, all kept the way
they are spelled in the normal form: percent-encoded where they must be, without the default port,
without dot segments. `Url.toText` only puts them together.
-/

import PlainRequest.Text.Digits

namespace PlainRequest

/-- Why a text is no URL. -/
inductive UrlError
  | relativeWithoutBase
  | emptyHost
  | invalidPort
  | invalidIpv4
  | invalidIpv6
  /-- The host of a URL that is looked up by name is no domain name. -/
  | invalidDomain
  /-- The host of any other URL holds a character that no host can. -/
  | invalidHostCharacter
  deriving DecidableEq, Repr

/-- The text of a URL error. -/
def UrlError.message : UrlError → Text
  | relativeWithoutBase => "relative URL without a base".toList
  | emptyHost => "empty host".toList
  | invalidPort => "invalid port number".toList
  | invalidIpv4 => "invalid IPv4 address".toList
  | invalidIpv6 => "invalid IPv6 address".toList
  | invalidDomain => "invalid international domain name".toList
  | invalidHostCharacter => "invalid domain character".toList

/-- A host. -/
inductive UrlHost
  /-- A name; the empty one where there is no host. -/
  | named (name : Text)
  /-- An IPv4 address as one number of 32 bits. -/
  | ipv4 (address : Nat)
  /-- An IPv6 address as eight numbers of 16 bits. -/
  | ipv6 (pieces : List Nat)
  deriving DecidableEq, Repr

/-- Who is asked, and where. An empty name or password is none. -/
structure Authority where
  userName : Text
  password : Text
  host : UrlHost
  /-- A port that is not the default one. -/
  port : Option Nat
  deriving DecidableEq, Repr

/-- A path. -/
inductive UrlPath
  /-- Segments, each with a slash before it. -/
  | segments (names : List Text)
  /-- A path that is no hierarchy, as in `mailto:a@b`. -/
  | flat (text : Text)
  deriving DecidableEq, Repr

/-- A URL. -/
structure Url where
  scheme : Text
  authority : Option Authority
  path : UrlPath
  query : Option Text
  fragment : Option Text
  deriving DecidableEq, Repr

/-! ## Schemes -/

/-- What a scheme says about the URLs that have it. -/
inductive SchemeKind
  /-- The host is looked up by name and a backslash is as good as a slash. -/
  | network
  /-- The same, for files; the host may be missing. -/
  | file
  /-- Nothing. -/
  | other
  deriving DecidableEq, Repr

/-- The network schemes with their default ports. -/
def defaultPorts : List (Text × Nat) :=
  [("http".toList, 80), ("https".toList, 443), ("ws".toList, 80), ("wss".toList, 443),
    ("ftp".toList, 21)]

/-- The kind of a scheme in lower case. -/
def SchemeKind.ofScheme (scheme : Text) : SchemeKind :=
  if (defaultPorts.lookup scheme).isSome then network
  else if scheme = "file".toList then file
  else other

/-- Is a backslash as good as a slash? -/
def SchemeKind.isSlash (kind : SchemeKind) (c : Char) : Bool :=
  c = '/' || c = '\\' && kind ≠ .other

/-! ## Spelling -/

/-- The four numbers of an IPv4 address with dots between them. -/
def ipv4Text (address : Nat) : Text :=
  Text.joinWith ['.']
    ([address / 16777216 % 256, address / 65536 % 256, address / 256 % 256, address % 256].map
      fun n => Nat.toDigits 10 n)

/-- The pieces of an IPv6 address as hexadecimal numbers with colons between them. -/
def piecesText (pieces : List Nat) : Text :=
  Text.joinWith [':'] (pieces.map fun n => Nat.toDigits 16 n)

/-- How many zeros a list starts with. -/
def leadingZeros (pieces : List Nat) : Nat := (pieces.takeWhile (· = 0)).length

/-- The longest run of at least two zeros, the first of several: where it starts and its length. -/
def longestZeros (pieces : List Nat) : Option (Nat × Nat) :=
  let runs := (List.range pieces.length).map fun start => (start, leadingZeros (pieces.drop start))
  runs.foldl
    (fun best run => if best.elim 1 Prod.snd < run.2 then some run else best)
    none

/-- An IPv6 address, its longest run of zeros left out between two colons. -/
def ipv6Text (pieces : List Nat) : Text :=
  match longestZeros pieces with
  | none => piecesText pieces
  | some (start, length) =>
      piecesText (pieces.take start) ++ "::".toList ++ piecesText (pieces.drop (start + length))

/-- A host. -/
def UrlHost.toText : UrlHost → Text
  | named name => name
  | ipv4 address => ipv4Text address
  | ipv6 pieces => ['['] ++ ipv6Text pieces ++ [']']

namespace Authority

/-- Is there a name or a password? -/
def hasCredentials (authority : Authority) : Bool :=
  ! authority.userName.isEmpty || ! authority.password.isEmpty

/-- The name and the password in front of a host. -/
def credentialsText (authority : Authority) : Text :=
  if authority.hasCredentials then
    authority.userName
      ++ (if authority.password.isEmpty then [] else [':'] ++ authority.password) ++ ['@']
  else []

/-- Host and port. -/
def hostAndPort (authority : Authority) : Text :=
  authority.host.toText ++ authority.port.elim [] fun port => [':'] ++ Nat.toDigits 10 port

/-- An authority. -/
def toText (authority : Authority) : Text := authority.credentialsText ++ authority.hostAndPort

end Authority

/-- A path. -/
def UrlPath.toText : UrlPath → Text
  | segments names => names.flatMap (['/'] ++ ·)
  | flat text => text

namespace Url

/-- What stands between the scheme and the path. Without an authority, a path that starts with two
slashes must not be taken for one. -/
def beforePath (url : Url) : Text :=
  match url.authority with
  | some authority => "//".toList ++ authority.toText
  | none => if Text.startsWith "//".toList url.path.toText then "/.".toList else []

/-- The URL without its fragment. -/
def toTextWithoutFragment (url : Url) : Text :=
  url.scheme ++ [':'] ++ url.beforePath ++ url.path.toText
    ++ url.query.elim [] fun query => ['?'] ++ query

/-- The normal spelling of a URL. -/
def toText (url : Url) : Text :=
  url.toTextWithoutFragment ++ url.fragment.elim [] fun fragment => ['#'] ++ fragment

/-- Does the URL name a host? -/
def hasHost (url : Url) : Bool := url.authority.any fun authority => authority.host ≠ .named []

/-- The URL without name and password. -/
def withoutCredentials (url : Url) : Url :=
  { url with
    authority := url.authority.map fun authority =>
      { authority with userName := [], password := [] } }

end Url

end PlainRequest
