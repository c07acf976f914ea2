/-
# PlainRequest.Url.Reader — a text read as a URL

White space and controls around the text do not count, nor do tabs and line ends inside it. What
follows the scheme is cut at the first `#` and then at the first `?`; what is left is read by the
kind of the scheme. A network URL has an authority however many slashes announce it. A file URL may
have one. Any other URL has one behind two slashes, a hierarchical path behind one, and else a flat
path.
-/

import PlainRequest.Url.Address
import PlainRequest.Url.Domain

namespace PlainRequest.Url

open Text

/-! ## What is kept unencoded -/

/-- In a path and its segments. -/
def keepsPath (c : Char) : Bool := isGraphic c && ! ("\"<>`#?".toList ++ ['{', '}']).contains c

/-- In a user name or password. -/
def keepsUser (c : Char) : Bool := keepsPath c && ! "/:;=@[\\]^|".toList.contains c

/-- In a query; network and file URLs also encode a single quote. -/
def keepsQuery (kind : SchemeKind) (c : Char) : Bool :=
  isGraphic c && ! "\"#<>".toList.contains c && (c ≠ '\'' || kind = .other)

/-- In a fragment. -/
def keepsFragment (c : Char) : Bool := isGraphic c && ! "\"<>`".toList.contains c

/-- In a flat path or a host that is no domain: all but controls. -/
def keepsFlat (c : Char) : Bool := isGraphic c || c = ' '

/-! ## Scheme -/

/-- Can the character stand in a scheme? -/
def isSchemeChar (c : Char) : Bool := c.isAlphanum || c = '+' || c = '-' || c = '.'

/-- The scheme in lower case, and what follows its colon. -/
def cutScheme? (text : Text) : Option (Text × Text) := do
  let (scheme, rest) ← splitFirst? ':' text
  if (scheme.head?.any Char.isAlpha) && scheme.all isSchemeChar then pure (lower scheme, rest)
  else none

/-! ## Authority -/

/-- Cut at the last at sign. -/
def cutCredentials (text : Text) : Option Text × Text :=
  match text.reverse.dropWhile (· ≠ '@') with
  | [] => (none, text)
  | _ :: credentials => (some credentials.reverse, (text.reverse.takeWhile (· ≠ '@')).reverse)

/-- User name and password, encoded. -/
def readCredentials (credentials : Text) : Text × Text :=
  match splitFirst? ':' credentials with
  | some (name, password) => (percentEncode keepsUser name, percentEncode keepsUser password)
  | none => (percentEncode keepsUser credentials, [])

/-- Cut in front of the first colon that stands in no brackets. -/
def cutPort (inBrackets : Bool) : Text → Text × Text
  | [] => ([], [])
  | c :: rest =>
      if c = ':' && ! inBrackets then ([], c :: rest)
      else
        let (host, port) := cutPort (c = '[' || inBrackets && c ≠ ']') rest
        (c :: host, port)

/-- Read a port behind its colon: the port unless it is the default one or missing, and what
follows it behind a backslash. -/
def readPort (scheme text : Text) : Except UrlError (Option Nat × Text) :=
  let digits := text.takeWhile isDecimal
  let rest := text.dropWhile isDecimal
  let port := digitsValue 10 digits
  if 65535 < port ∨ ! (rest.head?.all (· = '\\')) then throw .invalidPort
  else if digits.isEmpty ∨ defaultPorts.lookup scheme = some port then pure (none, rest)
  else pure (some port, rest)

/-- Read an address in brackets. -/
def readBrackets (text : Text) : Except UrlError UrlHost :=
  match stripSuffix? [']'] text with
  | none => throw .invalidIpv6
  | some inner =>
      match UrlHost.ipv6? (inner.drop 1) with
      | none => throw .invalidIpv6
      | some pieces => pure (.ipv6 pieces)

/-- Read a host that is looked up by name. -/
def readDomain (text : Text) : Except UrlError UrlHost :=
  if text.head? = some '[' then readBrackets text
  else
    match Domain.toAscii? text with
    | none => throw .invalidDomain
    | some [] => throw .emptyHost
    | some name =>
        if UrlHost.endsInNumber name then
          match UrlHost.ipv4? name with
          | none => throw .invalidIpv4
          | some address => pure (.ipv4 address)
        else pure (.named name)

/-- The characters that no host holds. -/
def hostDelimiters : Text := "\x00\t\n\r #/:<>?@[\\]^|".toList

/-- Read the host of a URL that is no network URL. -/
def readOtherHost (text : Text) : Except UrlError UrlHost :=
  if text.head? = some '[' then readBrackets text
  else if text.any hostDelimiters.contains then throw .invalidHostCharacter
  else pure (.named (percentEncode keepsFlat text))

/-- Read an authority and give back what follows its port. `endsHere` says that nothing follows the
authority. -/
def readAuthority (scheme : Text) (kind : SchemeKind) (endsHere : Bool) (text : Text) :
    Except UrlError (Authority × Text) := do
  let (credentials, hostAndPort) := cutCredentials text
  let (userName, password) := readCredentials (credentials.getD [])
  let (hostText, portText) := cutPort false hostAndPort
  let hasCredentials := ! userName.isEmpty || ! password.isEmpty
  let lacksHost := kind ≠ .other || ! portText.isEmpty || hasCredentials
    || credentials = some [] && ! endsHere
  if hostText.isEmpty && lacksHost then throw .emptyHost
  let host ← if kind = .other then readOtherHost hostText else readDomain hostText
  let (port, rest) ← readPort scheme (portText.drop 1)
  pure (⟨userName, password, host, port⟩, rest)

/-! ## Path -/

/-- Does the segment stand for the place itself? -/
def isSingleDot (segment : Text) : Bool := [".".toList, "%2e".toList].contains (lower segment)

/-- Does the segment stand for a step up? -/
def isDoubleDot (segment : Text) : Bool :=
  ["..".toList, "%2e%2e".toList, "%2e.".toList, ".%2e".toList].contains (lower segment)

/-- Is the segment a letter and a colon or bar? No step up leaves such a segment. -/
def isDriveLetter : Text → Bool
  | [letter, mark] => letter.isAlpha && (mark = ':' || mark = '|')
  | _ => false

/-- Leave the last segment, the first in the list. -/
def stepUp : List Text → List Text
  | [] => []
  | segment :: above => if isDriveLetter segment then segment :: above else above

/-- Resolve the dots among segments; `above` holds the segments before them, the last one first. A
path that ends in dots ends in a slash. -/
def resolveDots (above : List Text) : List Text → List Text
  | [] => above.reverse
  | [last] =>
      if isDoubleDot last then (stepUp above).reverse ++ [[]]
      else if isSingleDot last then above.reverse ++ [[]]
      else (last :: above).reverse
  | segment :: rest =>
      if isDoubleDot segment then resolveDots (stepUp above) rest
      else if isSingleDot segment then resolveDots above rest
      else resolveDots (segment :: above) rest

/-- Drop a slash at the start. -/
def dropSlash (kind : SchemeKind) : Text → Text
  | [] => []
  | c :: rest => if kind.isSlash c then rest else c :: rest

/-- The segments of a path, encoded and without dots. -/
def readSegments (kind : SchemeKind) (text : Text) : List Text :=
  let slashes := (dropSlash kind text).map fun c => if kind.isSlash c then '/' else c
  resolveDots [] ((splitAll '/' slashes).map (percentEncode keepsPath))

/-- The path behind an authority. Only a network path is never empty. -/
def readPath (kind : SchemeKind) (text : Text) : UrlPath :=
  if text.isEmpty && kind = .other then .segments [] else .segments (readSegments kind text)

/-! ## By kind -/

/-- Scheme, authority and path. -/
abbrev Front := Option Authority × UrlPath

/-- Read what follows the slashes of an authority. -/
def readFront (scheme : Text) (kind : SchemeKind) (isLast : Bool) (text : Text) :
    Except UrlError Front := do
  let authorityText := text.takeWhile (! kind.isSlash ·)
  let pathText := text.dropWhile (! kind.isSlash ·)
  let (authority, rest) ← readAuthority scheme kind (isLast && pathText.isEmpty) authorityText
  pure (some authority, readPath kind (rest ++ pathText))

/-- Segments of a file path: none of the first ones is empty, and a drive letter in front has a
colon. Whether there is a drive letter is told as well. -/
def fileSegments (segments : List Text) : Bool × List Text :=
  match segments.dropWhile List.isEmpty with
  | [] => (false, [[]])
  | first :: rest =>
      if isDriveLetter first then (true, (first.take 1 ++ [':']) :: rest)
      else (false, first :: rest)

/-- A file URL's authority has a host and nothing else. -/
def fileAuthority (host : UrlHost) : Authority := ⟨[], [], host, none⟩

/-- Read the host of a file URL; this machine is not named. -/
def readFileHost (text : Text) : Except UrlError UrlHost :=
  if text.isEmpty then pure (.named [])
  else do
    let host ← readDomain text
    pure (if host = .named "localhost".toList then .named [] else host)

/-- Read what follows the scheme of a file URL. -/
def readFile (text : Text) : Except UrlError Front := do
  let slashCount := (text.takeWhile SchemeKind.file.isSlash).length
  let hostText :=
    if slashCount < 2 then [] else (text.drop 2).takeWhile (! SchemeKind.file.isSlash ·)
  if hostText.isEmpty || isDriveLetter hostText then
    let path := if slashCount < 2 then text else text.drop 2
    pure (some (fileAuthority (.named [])),
      .segments (fileSegments (readSegments .file path)).2)
  else
    let host ← readFileHost hostText
    let path := (text.drop 2).dropWhile (! SchemeKind.file.isSlash ·)
    let (hasDrive, segments) := fileSegments (readSegments .file path)
    pure (some (fileAuthority (if hasDrive then .named [] else host)), .segments segments)

/-- Read what follows a scheme that is neither a network scheme nor `file`. -/
def readOther (scheme : Text) (isLast : Bool) (text : Text) : Except UrlError Front :=
  match text with
  | '/' :: '/' :: rest => readFront scheme .other isLast rest
  | '/' :: rest => pure (none, .segments (readSegments .other ('/' :: rest)))
  | _ => pure (none, .flat (percentEncode keepsFlat text))

/-- Read what stands between scheme and query. `isLast` says that neither query nor fragment
follows. -/
def readByKind (scheme : Text) (isLast : Bool) (text : Text) : Except UrlError Front :=
  match SchemeKind.ofScheme scheme with
  | .network => readFront scheme .network isLast (text.dropWhile SchemeKind.network.isSlash)
  | .file => readFile text
  | .other => readOther scheme isLast text

/-! ## The whole -/

/-- Cut at the first separator, if there is one. -/
def cutOff (separator : Char) (text : Text) : Text × Option Text :=
  match splitFirst? separator text with
  | some (before, after) => (before, some after)
  | none => (text, none)

/-- Is the character a control or a space? -/
def isOuterBlank (c : Char) : Bool := c.toNat ≤ 0x20

/-- The text without what does not count. -/
def clean (text : Text) : Text :=
  let inner := ((text.dropWhile isOuterBlank).reverse.dropWhile isOuterBlank).reverse
  inner.filter fun c => c ≠ '\t' && c ≠ '\n' && c ≠ '\r'

/-- Read a text as a URL. -/
def ofText (text : Text) : Except UrlError Url :=
  match cutScheme? (clean text) with
  | none => throw .relativeWithoutBase
  | some (scheme, rest) => do
      let (beforeFragment, fragment) := cutOff '#' rest
      let (front, query) := cutOff '?' beforeFragment
      let kind := SchemeKind.ofScheme scheme
      let (authority, path) ← readByKind scheme (query.isNone && fragment.isNone) front
      pure
        { scheme
          authority
          path
          query := query.map (percentEncode (keepsQuery kind))
          fragment := fragment.map (percentEncode keepsFragment) }

end PlainRequest.Url
