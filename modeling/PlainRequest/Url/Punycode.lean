/-
# PlainRequest.Url.Punycode — a label in letters, digits and dashes

Punycode writes the ASCII characters of a label first and then says, in variable-length numbers of
base 36, where the others are to be inserted: the characters in ascending order, and of each number
only the distance from the insertion before. How many digits a number takes follows a bias that
adapts to the distances seen so far.
-/

import PlainRequest.Text.Basic

namespace PlainRequest.Punycode

/-- The digit for a number below 36. -/
def digit (n : Nat) : Char := Char.ofNat (if n < 26 then n + 'a'.toNat else n - 26 + '0'.toNat)

/-- The number a digit stands for, in either case. -/
def digitValue? (c : Char) : Option Nat :=
  if 'a' ≤ c ∧ c ≤ 'z' then some (c.toNat - 'a'.toNat)
  else if 'A' ≤ c ∧ c ≤ 'Z' then some (c.toNat - 'A'.toNat)
  else if '0' ≤ c ∧ c ≤ '9' then some (c.toNat - '0'.toNat + 26)
  else none

/-- The least digit with which a number goes on, at a position that is a multiple of 36. -/
def threshold (bias position : Nat) : Nat := max 1 (min 26 (position - bias))

theorem threshold_bounds (bias position : Nat) :
    1 ≤ threshold bias position ∧ threshold bias position ≤ 26 := by
  unfold threshold
  omega

/-- Scale a distance down to where one division more would make it vanish, counting divisions. -/
def scaleDown (distance divisions : Nat) : Nat × Nat :=
  if 455 < distance then scaleDown (distance / 35) (divisions + 1) else (distance, divisions)
termination_by distance
decreasing_by omega

/-- The bias after a distance; `count` characters are then in place. -/
def adapt (distance count : Nat) (isFirst : Bool) : Nat :=
  let damped := if isFirst then distance / 700 else distance / 2
  let (scaled, divisions) := scaleDown (damped + damped / count) 0
  36 * divisions + 36 * scaled / (scaled + 38)

/-! ## Writing -/

/-- The digits of a distance. -/
def distanceDigits (bias position distance : Nat) : Text :=
  let t := threshold bias position
  if distance < t then [digit distance]
  else
    digit (t + (distance - t) % (36 - t))
      :: distanceDigits bias (position + 36) ((distance - t) / (36 - t))
termination_by distance
decreasing_by
  have ht := threshold_bounds bias position
  exact Nat.lt_of_le_of_lt (Nat.div_le_self _ _) (by omega)

/-- What has been written, and the distance, bias and count for the next insertion. -/
structure Writing where
  written : Text
  distance : Nat
  bias : Nat
  inPlace : Nat
  isFirst : Bool

/-- Pass one character of the label while the character `code` is being inserted. -/
def Writing.pass (code : Nat) (state : Writing) (c : Char) : Writing :=
  if c.toNat < code then { state with distance := state.distance + 1 }
  else if c.toNat = code then
    { written := state.written ++ distanceDigits state.bias 36 state.distance
      distance := 0
      bias := adapt state.distance (state.inPlace + 1) state.isFirst
      inPlace := state.inPlace + 1
      isFirst := false }
  else state

/-- Insert every occurrence of the characters `codes`, which ascend from `least` on. -/
def Writing.insertAll (label : Text) (least : Nat) (state : Writing) : List Nat → Writing
  | [] => state
  | code :: codes =>
      let skipped := state.distance + (code - least) * (state.inPlace + 1)
      let next := label.foldl (pass code) { state with distance := skipped }
      insertAll label (code + 1) { next with distance := next.distance + 1 } codes

/-- The characters of a label that are not of ASCII, ascending and each once. -/
def codesOf (label : Text) : List Nat :=
  (((label.map Char.toNat).filter (0x80 ≤ ·)).mergeSort).eraseDups

/-- The Punycode form of a label. -/
def encode (label : Text) : Text :=
  let ascii := label.filter fun c => c.toNat < 0x80
  let start : Writing :=
    { written := if ascii.isEmpty then [] else ascii ++ ['-']
      distance := 0
      bias := 72
      inPlace := ascii.length
      isFirst := true }
  (start.insertAll label 0x80 (codesOf label)).written

/-! ## Reading -/

/-- Where the next insertion goes, counted through all rounds of the label. -/
structure ReadingState where
  label : Text
  code : Nat
  index : Nat
  bias : Nat
  /-- The distance read so far, and the weight and position of its next digit. -/
  distance : Nat
  weight : Nat
  position : Nat

/-- No digit of the next distance has been read. -/
def ReadingState.isBetween (state : ReadingState) : Bool := state.position = 36

/-- Insert a character once its distance is complete. -/
def ReadingState.insert? (state : ReadingState) (distance : Nat) : Option ReadingState :=
  let count := state.label.length + 1
  let index := state.index + distance
  let code := state.code + index / count
  if code.isValidChar then
    some
      { label := state.label.insertIdx (index % count) (Char.ofNat code)
        code
        index := index % count + 1
        bias := adapt distance count (state.code = 0x80 && state.index = 0)
        distance := 0
        weight := 1
        position := 36 }
  else none

/-- Read one digit. -/
def ReadingState.step (state : ReadingState) (c : Char) : Option ReadingState := do
  let value ← digitValue? c
  let distance := state.distance + value * state.weight
  let t := threshold state.bias state.position
  if value < t then state.insert? distance
  else
    pure
      { state with
        distance
        weight := state.weight * (36 - t)
        position := state.position + 36 }

/-- The ASCII characters in front of the last dash, and the digits behind it. -/
def cutLastDash (text : Text) : Text × Text :=
  match text.reverse.dropWhile (· ≠ '-') with
  | [] => ([], text)
  | _ :: ascii => (ascii.reverse, (text.reverse.takeWhile (· ≠ '-')).reverse)

/-- The label that a Punycode form stands for. -/
def decode? (text : Text) : Option Text := do
  let (ascii, digits) := cutLastDash text
  let start : ReadingState := ⟨ascii, 0x80, 0, 72, 0, 1, 36⟩
  let final ← digits.foldlM ReadingState.step start
  if final.isBetween then pure final.label else none

end PlainRequest.Punycode
