/-
# PlainRequest.Proofs.Text.ByteOrder — texts are ordered as their bytes are

The first byte of a character grows with the number of bytes that follow it, and behind it stand the
digits of the code point to the base 64, the largest first. So of two characters the smaller one has
the smaller encoding, and this is settled before either of the encodings ends: texts are in the same
order by their characters as by their bytes. By code units of sixteen bits they would not be, since
there the characters past U+FFFF stand in front of those from U+E000 on.
-/

import PlainRequest.Proofs.Text.Utf8
import Mathlib.Algebra.Order.Ring.Nat

namespace PlainRequest.Text

/-! ## The encoding as digits -/

/-- How many bytes follow the first one. -/
def extraBytes (v : Nat) : Nat :=
  if v < 0x80 then 0 else if v < 0x800 then 1 else if v < 0x10000 then 2 else 3

/-- The mark of a first byte, by the number of the bytes that follow it. -/
def leadMark : Nat → Nat
  | 0 => 0
  | 1 => 0xC0
  | 2 => 0xE0
  | 3 => 0xF0
  | _ => 0xF8

/-- The first byte of a code point: the mark, and the digits that no other byte has. -/
def leadByte (v : Nat) : Nat := v / 64 ^ extraBytes v + leadMark (extraBytes v)

/-- The last digits of a code point to the base 64, each in a byte. -/
def continuations : Nat → Nat → Bytes
  | 0, _ => []
  | extra + 1, v => UInt8.ofNat (v / 64 ^ extra % 64 + 128) :: continuations extra v

theorem utf8EncodeChar_eq (c : Char) :
    String.utf8EncodeChar c =
      UInt8.ofNat (leadByte c.toNat) :: continuations (extraBytes c.toNat) c.toNat := by
  have hvalid : c.toNat < 0xD800 ∨ 0xDFFF < c.toNat ∧ c.toNat < 0x110000 := c.valid
  have hval : c.val.toNat = c.toNat := rfl
  generalize c.toNat = v at hvalid hval
  -- the bits of the first byte need no mask
  have htwo : v < 0x800 → v / 64 % 32 = v / 64 := by omega
  have hthree : v < 0x10000 → v / 4096 % 16 = v / 4096 := by omega
  have hfour : v < 0x110000 → v / 262144 % 8 = v / 262144 := by omega
  unfold String.utf8EncodeChar
  rw [hval]
  dsimp only
  split
  · have hextra : extraBytes v = 0 := by rw [extraBytes, if_pos (by omega)]
    rw [leadByte, hextra, pow_zero, Nat.div_one]
    rfl
  split
  · have hextra : extraBytes v = 1 := by rw [extraBytes, if_neg (by omega), if_pos (by omega)]
    rw [leadByte, hextra, htwo (by omega)]
    simp only [continuations, pow_zero, Nat.div_one]
    rfl
  split
  · have hextra : extraBytes v = 2 := by
      rw [extraBytes, if_neg (by omega), if_neg (by omega), if_pos (by omega)]
    rw [leadByte, hextra, hthree (by omega)]
    simp only [continuations, pow_zero, Nat.div_one]
    rfl
  · have hextra : extraBytes v = 3 := by
      rw [extraBytes, if_neg (by omega), if_neg (by omega), if_neg (by omega)]
    rw [leadByte, hextra, hfour (by omega)]
    simp only [continuations, pow_zero, Nat.div_one]
    rfl

/-! ## The order of code points -/

/-- The smaller number has the smaller quotient, or the same quotient and the smaller remainder. -/
theorem div_lt_or_mod_lt {v w : Nat} (base : Nat) (h : v < w) :
    v / base < w / base ∨ v / base = w / base ∧ v % base < w % base := by
  rcases Nat.lt_or_eq_of_le (Nat.div_le_div_right (c := base) (Nat.le_of_lt h)) with hlt | heq
  · exact .inl hlt
  · refine .inr ⟨heq, ?_⟩
    have hv := Nat.div_add_mod v base
    have hw := Nat.div_add_mod w base
    rw [heq] at hv
    omega

/-- More bytes have a larger mark. -/
theorem leadMark_mono {extra more : Nat} (h : extra ≤ more) : leadMark extra ≤ leadMark more := by
  induction h with
  | refl => exact Nat.le_refl _
  | @step more _ ih =>
      apply Nat.le_trans ih
      match more with
      | 0 | 1 | 2 | 3 => decide
      | _ + 4 => exact Nat.le_refl _

theorem leadMark_le (extra : Nat) : leadMark extra ≤ 0xF8 := by
  match extra with
  | 0 | 1 | 2 | 3 => decide
  | _ + 4 => exact Nat.le_refl _

theorem extraBytes_mono {v w : Nat} (h : v ≤ w) : extraBytes v ≤ extraBytes w := by
  unfold extraBytes
  repeat' split
  all_goals omega

/-- The first byte leaves room for the mark of longer encodings. -/
theorem leadByte_lt_leadMark {v : Nat} (h : v < 0x110000) :
    leadByte v < leadMark (extraBytes v + 1) := by
  rw [leadByte]
  unfold extraBytes
  repeat' split
  all_goals
    simp only [leadMark]
    omega

/-- The first byte decides, or it leaves the decision to the digits behind it. -/
theorem leadByte_lt_or {v w : Nat} (h : v < w) (hw : w < 0x110000) :
    leadByte v < leadByte w ∨ leadByte v = leadByte w ∧ extraBytes v = extraBytes w ∧
      v % 64 ^ extraBytes v < w % 64 ^ extraBytes v := by
  rcases Nat.lt_or_eq_of_le (extraBytes_mono (Nat.le_of_lt h)) with hlt | heq
  · left
    calc leadByte v < leadMark (extraBytes v + 1) := leadByte_lt_leadMark (h.trans hw)
      _ ≤ leadMark (extraBytes w) := leadMark_mono hlt
      _ ≤ leadByte w := Nat.le_add_left _ _
  · have hcases := div_lt_or_mod_lt (64 ^ extraBytes w) h
    rw [leadByte, leadByte, heq]
    omega

theorem ofNat_lt_ofNat {m n : Nat} (hn : n < 256) (h : m < n) : UInt8.ofNat m < UInt8.ofNat n := by
  rw [UInt8.lt_iff_toNat_lt, toNat_byte hn, toNat_byte (h.trans hn)]
  exact h

/-- Of as many digits those of the smaller number are smaller, whatever follows. -/
theorem continuations_lt {v w extra : Nat} (h : v % 64 ^ extra < w % 64 ^ extra)
    (rest more : Bytes) :
    continuations extra v ++ rest < continuations extra w ++ more := by
  induction extra with
  | zero => simp [Nat.mod_one] at h
  | succ extra ih =>
      rw [continuations, continuations, List.cons_append, List.cons_append, List.cons_lt_cons_iff]
      have hcases := div_lt_or_mod_lt (64 ^ extra) h
      rw [Nat.pow_succ, Nat.mod_mul_right_div_self, Nat.mod_mul_right_div_self,
        Nat.mod_mul_right_mod, Nat.mod_mul_right_mod] at hcases
      rcases hcases with hlt | ⟨heq, hrest⟩
      · exact .inl (ofNat_lt_ofNat (by omega) (by omega))
      · exact .inr ⟨by rw [heq], ih hrest⟩

/-- **Of two characters the smaller one has the smaller encoding**, whatever follows. -/
theorem utf8EncodeChar_lt {c d : Char} (h : c < d) (rest more : Bytes) :
    String.utf8EncodeChar c ++ rest < String.utf8EncodeChar d ++ more := by
  have hd : d.toNat < 0xD800 ∨ 0xDFFF < d.toNat ∧ d.toNat < 0x110000 := d.valid
  rw [utf8EncodeChar_eq, utf8EncodeChar_eq, List.cons_append, List.cons_append,
    List.cons_lt_cons_iff]
  rcases leadByte_lt_or (show c.toNat < d.toNat from h) (by omega) with hlt | ⟨heq, hextra, hdigits⟩
  · left
    apply ofNat_lt_ofNat _ hlt
    calc leadByte d.toNat < leadMark (extraBytes d.toNat + 1) := leadByte_lt_leadMark (by omega)
      _ ≤ 0xF8 := leadMark_le _
      _ < 256 := by decide
  · right
    refine ⟨by rw [heq], ?_⟩
    rw [← hextra]
    exact continuations_lt hdigits rest more

/-- **Texts are ordered as their bytes are.** -/
theorem toUtf8_lt_toUtf8 {text other : Text} (h : text < other) : toUtf8 text < toUtf8 other := by
  induction text generalizing other with
  | nil =>
      cases other with
      | nil => exact absurd h (List.lt_irrefl _)
      | cons d others =>
          show [] < String.utf8EncodeChar d ++ toUtf8 others
          rw [utf8EncodeChar_eq]
          exact List.nil_lt_cons _ _
  | cons c rest ih =>
      cases other with
      | nil => exact absurd h (List.not_lt_nil _)
      | cons d others =>
          show String.utf8EncodeChar c ++ toUtf8 rest < String.utf8EncodeChar d ++ toUtf8 others
          rcases List.cons_lt_cons_iff.mp h with hlt | ⟨rfl, hrest⟩
          · exact utf8EncodeChar_lt hlt _ _
          · exact List.append_left_lt (ih hrest)

end PlainRequest.Text
