/-
# PlainRequest.Proofs.Text.Utf8 — what is written as UTF-8 is read back with nothing replaced

The first byte of a character says how many bytes follow it, and each of these carries six of its bits.
The range of the second byte is narrower where a wider one would admit code points that are no
characters or that fewer bytes can hold; the bytes that a character is written in always lie within it.
So reading with replacement finds nothing to replace in the encoding of a text.
-/

import PlainRequest.Text.Utf8

namespace PlainRequest.Text

/-! ## Continuation bytes -/

theorem toNat_byte {n : Nat} (h : n < 256) : (UInt8.ofNat n).toNat = n := by
  rw [UInt8.toNat_ofNat']
  omega

/-- A byte within the range is read as the six bits that it carries. -/
theorem readContinuations_cons {low high : UInt8} {bits : Nat} (hbits : bits < 64)
    (hlow : low.toNat ≤ bits + 128) (hhigh : bits + 128 ≤ high.toNat) (before width missing : Nat)
    (rest : Bytes) :
    readContinuations low high before width (missing + 1) (UInt8.ofNat (bits + 128) :: rest) =
      readContinuations 0x80 0xBF (before * 64 + bits) (width + 1) missing rest := by
  have hbyte : (UInt8.ofNat (bits + 128)).toNat = bits + 128 := toNat_byte (by omega)
  rw [readContinuations, if_pos, hbyte, Nat.add_sub_cancel]
  rw [UInt8.le_iff_toNat_le, UInt8.le_iff_toNat_le, hbyte]
  exact ⟨hlow, hhigh⟩

/-- Behind the second byte all six bits are free. -/
theorem readContinuations_free {bits : Nat} (hbits : bits < 64) (before width missing : Nat)
    (rest : Bytes) :
    readContinuations 0x80 0xBF before width (missing + 1) (UInt8.ofNat (bits + 128) :: rest) =
      readContinuations 0x80 0xBF (before * 64 + bits) (width + 1) missing rest := by
  apply readContinuations_cons hbits
  · show 128 ≤ bits + 128
    omega
  · show bits + 128 ≤ 191
    omega

/-! ## Single characters -/

/-- A character of ASCII is its own byte. -/
theorem utf8Start_one {v : Nat} (h : v < 0x80) (rest : Bytes) :
    utf8Start (UInt8.ofNat v) rest = .character (Char.ofNat v) 1 := by
  have hlead : (UInt8.ofNat v).toNat = v := toNat_byte (by omega)
  unfold utf8Start
  rw [hlead, if_pos h]

theorem utf8Start_two {v : Nat} (hlow : 0x80 ≤ v) (hhigh : v < 0x800) (rest : Bytes) :
    utf8Start (UInt8.ofNat (v / 64 + 192)) (UInt8.ofNat (v % 64 + 128) :: rest) =
      .character (Char.ofNat v) 2 := by
  have hlead : (UInt8.ofNat (v / 64 + 192)).toNat = v / 64 + 192 := toNat_byte (by omega)
  have hbits : v / 64 * 64 + v % 64 = v := by omega
  unfold utf8Start
  simp only [hlead]
  rw [if_neg (by omega), if_neg (by omega), if_pos (by omega), Nat.add_sub_cancel,
    readContinuations_free (by omega), hbits]
  rfl

/-- The second byte must not begin an overlong form or a surrogate, and does not. -/
theorem utf8Start_three {v : Nat} (hlow : 0x800 ≤ v) (hhigh : v < 0x10000)
    (hvalid : v < 0xD800 ∨ 0xDFFF < v) (rest : Bytes) :
    utf8Start (UInt8.ofNat (v / 4096 + 224))
        (UInt8.ofNat (v / 64 % 64 + 128) :: UInt8.ofNat (v % 64 + 128) :: rest) =
      .character (Char.ofNat v) 3 := by
  have hlead : (UInt8.ofNat (v / 4096 + 224)).toNat = v / 4096 + 224 := toNat_byte (by omega)
  have hread : ∀ (low high : UInt8) (first : Nat), first = v / 4096 →
      low.toNat ≤ v / 64 % 64 + 128 → v / 64 % 64 + 128 ≤ high.toNat →
      readContinuations low high first 1 2
          (UInt8.ofNat (v / 64 % 64 + 128) :: UInt8.ofNat (v % 64 + 128) :: rest) =
        .character (Char.ofNat v) 3 := by
    intro low high first hfirst hsecond hsecond'
    have hbits : (first * 64 + v / 64 % 64) * 64 + v % 64 = v := by omega
    rw [readContinuations_cons (by omega) hsecond hsecond', readContinuations_free (by omega), hbits]
    rfl
  unfold utf8Start
  simp only [hlead]
  rw [if_neg (by omega), if_neg (by omega), if_neg (by omega), Nat.add_sub_cancel]
  split
  · apply hread
    · omega
    · show 160 ≤ v / 64 % 64 + 128
      omega
    · show v / 64 % 64 + 128 ≤ 191
      omega
  · split
    · apply hread
      · rfl
      · show 128 ≤ v / 64 % 64 + 128
        omega
      · show v / 64 % 64 + 128 ≤ 159
        omega
    · rw [if_pos (by omega)]
      apply hread
      · rfl
      · show 128 ≤ v / 64 % 64 + 128
        omega
      · show v / 64 % 64 + 128 ≤ 191
        omega

/-- Nor does it begin an overlong form or a number past the last code point. -/
theorem utf8Start_four {v : Nat} (hlow : 0x10000 ≤ v) (hhigh : v < 0x110000) (rest : Bytes) :
    utf8Start (UInt8.ofNat (v / 262144 + 240))
        (UInt8.ofNat (v / 4096 % 64 + 128) :: UInt8.ofNat (v / 64 % 64 + 128) ::
          UInt8.ofNat (v % 64 + 128) :: rest) =
      .character (Char.ofNat v) 4 := by
  have hlead : (UInt8.ofNat (v / 262144 + 240)).toNat = v / 262144 + 240 := toNat_byte (by omega)
  have hread : ∀ (low high : UInt8) (first : Nat), first = v / 262144 →
      low.toNat ≤ v / 4096 % 64 + 128 → v / 4096 % 64 + 128 ≤ high.toNat →
      readContinuations low high first 1 3
          (UInt8.ofNat (v / 4096 % 64 + 128) :: UInt8.ofNat (v / 64 % 64 + 128) ::
            UInt8.ofNat (v % 64 + 128) :: rest) =
        .character (Char.ofNat v) 4 := by
    intro low high first hfirst hsecond hsecond'
    have hbits : ((first * 64 + v / 4096 % 64) * 64 + v / 64 % 64) * 64 + v % 64 = v := by omega
    rw [readContinuations_cons (by omega) hsecond hsecond', readContinuations_free (by omega),
      readContinuations_free (by omega), hbits]
    rfl
  unfold utf8Start
  simp only [hlead]
  rw [if_neg (by omega), if_neg (by omega), if_neg (by omega), if_neg (by omega),
    if_neg (by omega), if_neg (by omega), Nat.add_sub_cancel]
  split
  · apply hread
    · omega
    · show 144 ≤ v / 4096 % 64 + 128
      omega
    · show v / 4096 % 64 + 128 ≤ 191
      omega
  · split
    · apply hread
      · rfl
      · show 128 ≤ v / 4096 % 64 + 128
        omega
      · show v / 4096 % 64 + 128 ≤ 191
        omega
    · rw [if_pos (by omega)]
      apply hread
      · omega
      · show 128 ≤ v / 4096 % 64 + 128
        omega
      · show v / 4096 % 64 + 128 ≤ 143
        omega

/-- **A character is found at the start of its encoding**, whatever follows, and takes up all of it. -/
theorem utf8Start_utf8EncodeChar (c : Char) :
    ∃ lead others, String.utf8EncodeChar c = lead :: others ∧
      ∀ rest, utf8Start lead (others ++ rest) = .character c (others.length + 1) := by
  have hvalid : c.val.toNat < 0xD800 ∨ 0xDFFF < c.val.toNat ∧ c.val.toNat < 0x110000 := c.valid
  have hsame : Char.ofNat c.val.toNat = c := c.ofNat_toNat
  generalize hv : c.val.toNat = v at hvalid hsame
  -- the bits of the lead byte need no mask
  have htwo : v < 0x800 → v / 64 % 32 = v / 64 := by omega
  have hthree : v < 0x10000 → v / 4096 % 16 = v / 4096 := by omega
  have hfour : v < 0x110000 → v / 262144 % 8 = v / 262144 := by omega
  unfold String.utf8EncodeChar
  rw [hv]
  dsimp only
  split
  · refine ⟨_, _, rfl, ?_⟩
    intro rest
    rw [utf8Start_one (by omega), hsame]
    rfl
  · split
    · refine ⟨_, _, rfl, ?_⟩
      intro rest
      rw [htwo (by omega), List.singleton_append, utf8Start_two (by omega) (by omega), hsame]
      rfl
    · split
      · refine ⟨_, _, rfl, ?_⟩
        intro rest
        rw [hthree (by omega), List.cons_append, List.singleton_append,
          utf8Start_three (by omega) (by omega) (by omega), hsame]
        rfl
      · refine ⟨_, _, rfl, ?_⟩
        intro rest
        rw [hfour (by omega), List.cons_append, List.cons_append, List.singleton_append,
          utf8Start_four (by omega) (by omega), hsame]
        rfl

/-- **A byte of ASCII is all of its character**, and no part of another one. -/
theorem byte_eq_iff {c d : Char} {byte : UInt8} (hbyte : byte ∈ String.utf8EncodeChar c)
    (hd : d.toNat < 0x80) : byte = UInt8.ofNat d.toNat ↔ c = d := by
  have hvalid : c.val.toNat < 0xD800 ∨ 0xDFFF < c.val.toNat ∧ c.val.toNat < 0x110000 := c.valid
  have hsame : c = d ↔ c.val.toNat = d.toNat := by
    rw [← Char.toNat_inj]
    rfl
  have heq : byte = UInt8.ofNat d.toNat ↔ byte.toNat = d.toNat := by
    rw [← UInt8.toNat_inj, toNat_byte (by omega)]
  rw [hsame, heq]
  unfold String.utf8EncodeChar at hbyte
  generalize c.val.toNat = v at hvalid hbyte
  dsimp only at hbyte
  repeat' split at hbyte
  all_goals simp only [List.mem_cons, List.not_mem_nil, or_false] at hbyte
  · rw [hbyte, toNat_byte (by omega)]
  · rcases hbyte with rfl | rfl <;> rw [toNat_byte (by omega)] <;> omega
  · rcases hbyte with rfl | rfl | rfl <;> rw [toNat_byte (by omega)] <;> omega
  · rcases hbyte with rfl | rfl | rfl | rfl <;> rw [toNat_byte (by omega)] <;> omega

/-! ## Texts -/

theorem toUtf8_append (text more : Text) : toUtf8 (text ++ more) = toUtf8 text ++ toUtf8 more :=
  List.flatMap_append

/-- A character of ASCII that a text does not have is no byte of it. -/
theorem byte_notMem_toUtf8 {text : Text} {d : Char} (hd : d.toNat < 0x80) (h : d ∉ text) :
    UInt8.ofNat d.toNat ∉ toUtf8 text := by
  intro hmem
  obtain ⟨c, hc, hbyte⟩ := List.mem_flatMap.mp hmem
  obtain rfl := (byte_eq_iff hbyte hd).mp rfl
  exact h hc

/-- Where a byte passes a test just if its character passes one, the bytes of a text lose in front what
its characters lose. -/
theorem dropWhile_flatMap {encode : Char → Bytes} {p : UInt8 → Bool} {q : Char → Bool}
    (hne : ∀ c, encode c ≠ []) (h : ∀ c, ∀ byte ∈ encode c, p byte = q c) (text : Text) :
    (text.flatMap encode).dropWhile p = (text.dropWhile q).flatMap encode := by
  induction text with
  | nil => rfl
  | cons c rest ih =>
      rw [List.flatMap_cons]
      by_cases hc : q c = true
      · rw [List.dropWhile_append_of_pos fun byte hbyte => by rw [h c byte hbyte, hc], ih,
          List.dropWhile_cons_of_pos hc]
      · obtain ⟨byte, others, hbytes⟩ := List.exists_cons_of_ne_nil (hne c)
        have hbyte : ¬ p byte = true := by
          rw [h c byte (by simp [hbytes])]
          exact hc
        rw [List.dropWhile_cons_of_neg hc, List.flatMap_cons, hbytes, List.cons_append,
          List.dropWhile_cons_of_neg hbyte]

theorem ofUtf8Lossy_utf8EncodeChar (c : Char) (rest : Bytes) :
    ofUtf8Lossy (String.utf8EncodeChar c ++ rest) = c :: ofUtf8Lossy rest := by
  obtain ⟨lead, others, hbytes, hstart⟩ := utf8Start_utf8EncodeChar c
  rw [hbytes, List.cons_append, ofUtf8Lossy, hstart rest]
  show c :: ofUtf8Lossy ((others ++ rest).drop others.length) = c :: ofUtf8Lossy rest
  rw [List.drop_left]

/-- **In what is written nothing is replaced** when it is read. -/
theorem ofUtf8Lossy_toUtf8 (text : Text) : ofUtf8Lossy (toUtf8 text) = text := by
  induction text with
  | nil => rw [toUtf8, List.flatMap_nil, ofUtf8Lossy]
  | cons c rest ih =>
      show ofUtf8Lossy (String.utf8EncodeChar c ++ toUtf8 rest) = c :: rest
      rw [ofUtf8Lossy_utf8EncodeChar, ih]

end PlainRequest.Text
