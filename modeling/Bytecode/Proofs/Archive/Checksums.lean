import Bytecode.Archive.Checksum
import Mathlib.Data.Nat.Notation
import Mathlib.Logic.Function.Basic

/-!
# What a checksum notices

No bits are lost when a remainder is shifted, so contents that differ in one byte have different
checksums.
-/

namespace Bytecode
namespace Archive

open Function

/-!
# One bit
-/

def shiftBit (r : UInt32) : UInt32 :=
  if r &&& 1 = 0 then r >>> 1 else (r >>> 1) ^^^ 0xEDB88320

theorem and_one_eq_zero_iff (r : UInt32) : r &&& 1 = 0 ↔ r.toNat % 2 = 0 := by
  rw [← UInt32.toNat_inj, UInt32.toNat_and, ← Nat.and_one_is_mod]
  rfl

theorem toNat_shiftRight_one (r : UInt32) : (r >>> 1).toNat = r.toNat / 2 := by
  rw [UInt32.toNat_shiftRight, Nat.shiftRight_eq_div_pow]
  rfl

theorem eq_of_shiftRight_one {r q : UInt32} (h : r >>> 1 = q >>> 1)
    (hlow : r.toNat % 2 = q.toNat % 2) : r = q := by
  have hdiv := congrArg UInt32.toNat h
  rw [toNat_shiftRight_one, toNat_shiftRight_one] at hdiv
  exact UInt32.toNat_inj.mp (by omega)

theorem shiftRight_one_ne (r q : UInt32) : r >>> 1 ≠ (q >>> 1) ^^^ 0xEDB88320 := by
  intro h
  have hxor : (r >>> 1) ^^^ (q >>> 1) = 0xEDB88320 := by
    rw [h, UInt32.xor_comm, ← UInt32.xor_assoc, UInt32.xor_self, UInt32.zero_xor]
  have hless : ((r >>> 1) ^^^ (q >>> 1)).toNat < 2 ^ 31 := by
    have hr := r.toNat_lt
    have hq := q.toNat_lt
    rw [UInt32.toNat_xor, toNat_shiftRight_one, toNat_shiftRight_one]
    exact Nat.xor_lt_two_pow (by omega) (by omega)
  rw [hxor] at hless
  exact absurd hless (by decide)

theorem shiftBit_injective : Injective shiftBit := by
  intro r q h
  unfold shiftBit at h
  split at h <;> split at h
  next hr hq =>
    rw [and_one_eq_zero_iff] at hr hq
    exact eq_of_shiftRight_one h (hr.trans hq.symm)
  next => exact absurd h (shiftRight_one_ne r q)
  next => exact absurd h.symm (shiftRight_one_ne q r)
  next hr hq =>
    rw [and_one_eq_zero_iff] at hr hq
    exact eq_of_shiftRight_one ((UInt32.xor_left_inj _).mp h) (by omega)

/-!
# Bytes
-/

theorem shiftRemainder_injective (bits : ℕ) : Injective (shiftRemainder · bits) := by
  induction bits with
  | zero => exact injective_id
  | succ bits ih => exact ih.comp shiftBit_injective

theorem remainder_injective (bytes : List UInt8) :
    Injective (bytes.foldl fun r b => shiftRemainder (r ^^^ b.toUInt32) 8) := by
  induction bytes with
  | nil => exact injective_id
  | cons b rest ih =>
      intro r q h
      exact (UInt32.xor_left_inj b.toUInt32).mp (shiftRemainder_injective 8 (ih h))

/-- Contents that differ in one byte have different checksums. -/
theorem checksum_eq_iff {front back : List UInt8} {x y : UInt8} :
    checksum (front ++ x :: back) = checksum (front ++ y :: back) ↔ x = y := by
  constructor
  · intro h
    have hfolds := (UInt32.xor_left_inj 0xFFFFFFFF).mp h
    rw [List.foldl_append, List.foldl_append, List.foldl_cons, List.foldl_cons] at hfolds
    have hbyte := shiftRemainder_injective 8 (remainder_injective back hfolds)
    have hword := (UInt32.xor_right_inj _).mp hbyte
    exact UInt8.toNat_inj.mp (congrArg UInt32.toNat hword)
  · rintro rfl
    rfl

end Archive
end Bytecode
