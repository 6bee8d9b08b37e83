import Mathlib.Logic.Function.Iterate
import TierTree.Checksum

/-!
What a checksum tells apart. Feeding a byte loses nothing of the register, and
different bytes leave different registers. So the checksums of two byte strings
that differ in a single byte are different, wherever that byte stands.
-/

namespace TierTree.Checksum

variable {register other : UInt32} {b c : UInt8}

/-- Whether a one was shifted out stands in the highest bit. -/
theorem shift_lt_iff (register : UInt32) :
    (shift register).toNat < 0x80000000 ↔ register &&& 1 ≠ 1 := by
  have hHalf : (register >>> 1).toNat < 2 ^ 31 := by
    rw [UInt32.toNat_shiftRight]
    have := register.toNat_lt
    simp [Nat.shiftRight_eq_div_pow]
    omega
  unfold shift
  split
  next hOne =>
    refine iff_of_false (fun hLow => ?_) (fun hNot => hNot hOne)
    -- taking the polynomial out of a small number would leave it small
    have hPolynomial :
        ((register >>> 1) ^^^ ((register >>> 1) ^^^ 0xEDB88320)).toNat < 2 ^ 31 := by
      rw [UInt32.toNat_xor]
      exact Nat.xor_lt_two_pow hHalf hLow
    rw [← UInt32.xor_assoc, UInt32.xor_self, UInt32.zero_xor] at hPolynomial
    exact absurd hPolynomial (by decide)
  next hZero => exact iff_of_true hHalf hZero

theorem shift_injective : Function.Injective shift := by
  intro register other h
  have hLow : register &&& 1 = 1 ↔ other &&& 1 = 1 := by
    rw [← not_iff_not, ← ne_eq, ← ne_eq, ← shift_lt_iff, ← shift_lt_iff, h]
  have hHigh : register >>> 1 = other >>> 1 := by
    unfold shift at h
    by_cases hOne : register &&& 1 = 1
    · rw [if_pos hOne, if_pos (hLow.mp hOne)] at h
      exact (UInt32.xor_left_inj _).mp h
    · rwa [if_neg hOne, if_neg (mt hLow.mpr hOne)] at h
  have hBit : register.toNat % 2 = 1 ↔ other.toNat % 2 = 1 := by
    simpa [← UInt32.toNat_inj, Nat.and_one_is_mod] using hLow
  have hRest : register.toNat / 2 = other.toNat / 2 := by
    simpa [Nat.shiftRight_eq_div_pow] using congrArg UInt32.toNat hHigh
  exact UInt32.toNat_inj.mp (by omega)

theorem feed_eq_iterate (register : UInt32) (byte : UInt8) :
    feed register byte = shift^[8] (register ^^^ byte.toUInt32) := rfl

theorem feed_inj : feed register b = feed other b ↔ register = other := by
  rw [feed_eq_iterate, feed_eq_iterate, (shift_injective.iterate 8).eq_iff, UInt32.xor_left_inj]

theorem feed_byte_inj : feed register b = feed register c ↔ b = c := by
  rw [feed_eq_iterate, feed_eq_iterate, (shift_injective.iterate 8).eq_iff, UInt32.xor_right_inj,
    UInt8.toUInt32_inj]

theorem foldl_feed_inj (bytes : List UInt8) :
    bytes.foldl feed register = bytes.foldl feed other ↔ register = other := by
  induction bytes generalizing register other with
  | nil => rfl
  | cons b rest ih => rw [List.foldl_cons, List.foldl_cons, ih, feed_inj]

/-- No two strings that differ in a single byte have the same checksum. -/
theorem crc32_byte_inj (front back : List UInt8) :
    crc32 (front ++ b :: back) = crc32 (front ++ c :: back) ↔ b = c := by
  rw [crc32, crc32, UInt32.xor_left_inj, List.foldl_append, List.foldl_append, List.foldl_cons,
    List.foldl_cons, foldl_feed_inj, feed_byte_inj]

end TierTree.Checksum
