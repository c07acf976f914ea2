/-
# PlainRequest.Text.Percent — bytes written with characters of ASCII

Formats that reserve some characters write the others' UTF-8 bytes as `%` and two hexadecimal
digits. Which characters stand for themselves differs from format to format and is given as a
predicate; a percent sign that two digits do not follow stands for itself when it is read.

Where no byte stands for itself they are written in Base64. Three bytes make four letters of an
alphabet of 64; one or two bytes at the end make two or three letters and are filled up with equals
signs.
-/

import PlainRequest.Text.Digits
import PlainRequest.Text.Utf8

namespace PlainRequest.Text

/-- A byte as a percent sign and two upper-case hexadecimal digits. -/
def percentByte (byte : UInt8) : Text :=
  ['%', hexDigitUpper (byte.toNat / 16), hexDigitUpper (byte.toNat % 16)]

/-- A character that is kept, or its UTF-8 bytes. -/
def percentChar (keeps : Char → Bool) (c : Char) : Text :=
  if keeps c then [c] else (String.utf8EncodeChar c).flatMap percentByte

/-- The text with every character that is not kept written as bytes. -/
def percentEncode (keeps : Char → Bool) (text : Text) : Text :=
  text.flatMap (percentChar keeps)

/-- The bytes that a text with percent signs stands for. -/
def percentDecode : Text → Bytes
  | [] => []
  | '%' :: high :: low :: rest =>
      match digitValue? high, digitValue? low with
      | some h, some l => UInt8.ofNat (h * 16 + l) :: percentDecode rest
      | _, _ => 0x25 :: percentDecode (high :: low :: rest)
  | c :: rest => String.utf8EncodeChar c ++ percentDecode rest

/-- Is the character of ASCII and neither a control character nor a space? -/
def isGraphic (c : Char) : Bool := 0x21 ≤ c.toNat && c.toNat ≤ 0x7E

/-- Is the text of ASCII throughout? -/
def isAscii (text : Text) : Bool := text.all fun c => c.toNat < 0x80

@[simp] theorem percentEncode_nil (keeps : Char → Bool) : percentEncode keeps [] = [] := rfl

@[simp] theorem percentEncode_append (keeps : Char → Bool) (a b : Text) :
    percentEncode keeps (a ++ b) = percentEncode keeps a ++ percentEncode keeps b := by
  simp [percentEncode]

/-- A byte that was written reads back. -/
theorem percentDecode_percentByte (byte : UInt8) (rest : Text) :
    percentDecode (percentByte byte ++ rest) = byte :: percentDecode rest := by
  have hlt : byte.toNat < 256 := byte.toNat_lt
  have hhigh := (digitValue?_hexDigit (show byte.toNat / 16 < 16 by omega)).2
  have hlow := (digitValue?_hexDigit (show byte.toNat % 16 < 16 by omega)).2
  have hsum : byte.toNat / 16 * 16 + byte.toNat % 16 = byte.toNat := by omega
  simp [percentByte, percentDecode, hhigh, hlow, hsum]

/-! ## Base64 -/

/-- The letters for 0 to 63. -/
def base64Letters : Text :=
  "ABCDEFGHIJKLMNOPQRSTUVWXYZabcdefghijklmnopqrstuvwxyz0123456789+/".toList

/-- The letter for a number below 64. -/
def base64Letter (n : Nat) : Char := base64Letters.getD n '='

/-- The four letters for a number of 24 bits. -/
def base64Group (n : Nat) : Text :=
  [base64Letter (n / 262144 % 64), base64Letter (n / 4096 % 64), base64Letter (n / 64 % 64),
    base64Letter (n % 64)]

/-- Bytes in Base64. -/
def base64 : Bytes → Text
  | [] => []
  | [a] => (base64Group (a.toNat * 65536)).take 2 ++ "==".toList
  | [a, b] => (base64Group (a.toNat * 65536 + b.toNat * 256)).take 3 ++ ['=']
  | a :: b :: c :: rest =>
      base64Group (a.toNat * 65536 + b.toNat * 256 + c.toNat) ++ base64 rest

end PlainRequest.Text
