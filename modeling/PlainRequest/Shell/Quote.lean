/-
# PlainRequest.Shell.Quote — one word written for a shell

Two ways of writing a word. `escapeDouble` makes a text safe between double quotes. `quote?` finds a
spelling for a word of its own: it cuts the word into chunks, each as long as a single way of
quoting allows, and writes each chunk bare if it can, else in single quotes, else in double quotes.
A word with a NUL has no spelling.

The caret is special. It may stand in single quotes only, and there only as the first character, so
a caret inside a word always opens a new chunk.
-/

import PlainRequest.Text.Basic

namespace PlainRequest.Shell

/-- Does the character need a backslash between double quotes? -/
def needsEscape (c : Char) : Bool := c = '\\' || c = '"' || c = '$' || c = '`'

/-- The text as it is written between double quotes. -/
def escapeDouble (text : Text) : Text :=
  text.flatMap fun c => if needsEscape c then ['\\', c] else [c]

/-- The ways in which some characters may be quoted. -/
structure Ways where
  bare : Bool
  single : Bool
  double : Bool
  deriving DecidableEq, Repr

namespace Ways

/-- The ways that both allow. -/
def meet (a b : Ways) : Ways := ⟨a.bare && b.bare, a.single && b.single, a.double && b.double⟩

/-- Is there any way left? -/
def any (ways : Ways) : Bool := ways.bare || ways.single || ways.double

/-- The characters that can stand in a word without quotes: ASCII letters and digits and a few
marks. -/
def isBare (c : Char) : Bool := c.isAlphanum || "+-./:@]_".toList.contains c

/-- The ways in which a character may be quoted behind another one of its chunk. -/
def inside (c : Char) : Ways :=
  { bare := isBare c
    single := ! "'^\\".toList.contains c
    double := ! "`$!^".toList.contains c }

/-- The ways in which a character may be quoted as the first one of its chunk. -/
def first (c : Char) : Ways := if c = '^' then ⟨false, true, false⟩ else inside c

/-- Write a chunk in the plainest way that is allowed. -/
def write (ways : Ways) (chunk : Text) : Text :=
  if ways.bare then chunk
  else if ways.single then ['\''] ++ chunk ++ ['\'']
  else ['"'] ++ escapeDouble chunk ++ ['"']

end Ways

/-- Take characters as long as one way of quoting covers them all: the ways that remain, the
characters taken, and the rest. -/
def takeChunk (ways : Ways) : Text → Ways × Text × Text
  | [] => (ways, [], [])
  | c :: rest =>
      let narrowed := ways.meet (Ways.inside c)
      if narrowed.any then
        let (final, chunk, left) := takeChunk narrowed rest
        (final, c :: chunk, left)
      else (ways, [], c :: rest)

theorem takeChunk_append (ways : Ways) (text : Text) :
    (takeChunk ways text).2.1 ++ (takeChunk ways text).2.2 = text := by
  induction text generalizing ways with
  | nil => rfl
  | cons c rest ih =>
      simp only [takeChunk]
      split
      · simp [ih]
      · rfl

/-- The chunks of a word, written. -/
def quoteChunks : Text → Text
  | [] => []
  | c :: rest =>
      match h : takeChunk (Ways.first c) rest with
      | (ways, chunk, left) =>
          have : left.length ≤ rest.length := by
            have happ := congrArg List.length (takeChunk_append (Ways.first c) rest)
            simp only [h, List.length_append] at happ
            omega
          ways.write (c :: chunk) ++ quoteChunks left
termination_by text => text.length

/-- A word's spelling for a shell; none for a word with a NUL. -/
def quote? (word : Text) : Option Text :=
  if word.contains '\x00' then none
  else if word.isEmpty then some "''".toList
  else some (quoteChunks word)

end PlainRequest.Shell
