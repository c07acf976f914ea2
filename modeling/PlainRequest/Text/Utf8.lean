/-
# PlainRequest.Text.Utf8 — texts as bytes

The bytes of a text are its UTF-8 encoding. Bytes are read back in two ways: strictly, where one
malformed sequence makes the whole unreadable, and with replacement, where each maximal malformed
sequence becomes one U+FFFD.
-/

import PlainRequest.Text.Basic

namespace PlainRequest

/-- A run of bytes: a file's content, a request body. -/
abbrev Bytes := List UInt8

namespace Text

/-- The UTF-8 encoding of a text. -/
def toUtf8 (text : Text) : Bytes := text.flatMap String.utf8EncodeChar

/-- How a run of bytes starts: with a well-formed character, or with a number of bytes that are
the longest malformed beginning of one. -/
inductive Utf8Start
  | character (c : Char) (width : Nat)
  | malformed (width : Nat)

/-- Read continuation bytes, of which the first must lie between `low` and `high`; `bits` is what
was read so far, `width` in how many bytes, and `missing` counts the bytes still to come. -/
def readContinuations (low high : UInt8) (bits width : Nat) : Nat → Bytes → Utf8Start
  | 0, _ => .character (Char.ofNat bits) width
  | _ + 1, [] => .malformed width
  | missing + 1, b :: rest =>
      if low ≤ b ∧ b ≤ high then
        readContinuations 0x80 0xBF (bits * 64 + (b.toNat - 0x80)) (width + 1) missing rest
      else .malformed width

/-- The start of a non-empty run of bytes, by its lead byte. Overlong forms, surrogates and code
points past U+10FFFF are excluded by the range of the second byte. -/
def utf8Start (lead : UInt8) (rest : Bytes) : Utf8Start :=
  let n := lead.toNat
  if n < 0x80 then .character (Char.ofNat n) 1
  else if n < 0xC2 then .malformed 1
  else if n < 0xE0 then readContinuations 0x80 0xBF (n - 0xC0) 1 1 rest
  else if n = 0xE0 then readContinuations 0xA0 0xBF 0 1 2 rest
  else if n = 0xED then readContinuations 0x80 0x9F (n - 0xE0) 1 2 rest
  else if n < 0xF0 then readContinuations 0x80 0xBF (n - 0xE0) 1 2 rest
  else if n = 0xF0 then readContinuations 0x90 0xBF 0 1 3 rest
  else if n < 0xF4 then readContinuations 0x80 0xBF (n - 0xF0) 1 3 rest
  else if n = 0xF4 then readContinuations 0x80 0x8F 4 1 3 rest
  else .malformed 1

/-- Read bytes as text, one U+FFFD for each maximal malformed sequence. -/
def ofUtf8Lossy : Bytes → Text
  | [] => []
  | lead :: rest =>
      match utf8Start lead rest with
      | .character c width => c :: ofUtf8Lossy (rest.drop (width - 1))
      | .malformed width => '\uFFFD' :: ofUtf8Lossy (rest.drop (width - 1))
termination_by bytes => bytes.length
decreasing_by all_goals simp only [List.length_drop, List.length_cons]; omega

/-- Read bytes as text, if they are well-formed throughout. -/
def ofUtf8? (bytes : Bytes) : Option Text :=
  (String.fromUTF8? ⟨bytes.toArray⟩).map String.toList

/-- **What is written is read back.** The encoding of a text is well-formed and stands for it. -/
theorem ofUtf8?_toUtf8 (text : Text) : ofUtf8? (toUtf8 text) = some text := by
  have hbytes : (⟨(toUtf8 text).toArray⟩ : ByteArray) = (String.ofList text).toUTF8 := by
    rw [String.toUTF8_eq_toByteArray, String.toByteArray_ofList, List.utf8Encode]
    apply ByteArray.ext
    rw [List.data_toByteArray]
    rfl
  unfold ofUtf8? String.fromUTF8?
  rw [hbytes, String.toUTF8_eq_toByteArray, dif_pos (String.ofList text).isValidUTF8]
  show some (String.ofList text).toList = some text
  rw [String.toList_ofList]

end Text

end PlainRequest
