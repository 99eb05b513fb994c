import Bytecode.Proofs.Execution.LocalAccess
import Mathlib.Data.Int.Bitwise
import Mathlib.Data.Int.ModEq
import Mathlib.Tactic.Positivity

/-!
# Arithmetic on integers

The instructions on integers of both widths compute what the numbers say, reduced to a number that
fits the width.  Only a zero divisor is a fault, and the quotient that does not fit wraps.
-/

namespace Bytecode

open OperandStack

/-!
# Words and numbers
-/

namespace IntegerOp

def onBits {n : Nat} : IntegerOp → BitVec n → BitVec n → BitVec n
  | add, a, b => a + b
  | sub, a, b => a - b
  | mul, a, b => a * b
  | div, a, b => a.sdiv b
  | rem, a, b => a.srem b
  | and, a, b => a &&& b
  | or, a, b => a ||| b
  | xor, a, b => a ^^^ b

/-- The operation on numbers of any size, where a negative number has ones without end. -/
def onNumbers : IntegerOp → Int → Int → Int
  | add, a, b => a + b
  | sub, a, b => a - b
  | mul, a, b => a * b
  | div, a, b => a.tdiv b
  | rem, a, b => a.tmod b
  | and, a, b => a.land b
  | or, a, b => a.lor b
  | xor, a, b => a.xor b

end IntegerOp

namespace ShiftOp

def onBits {n : Nat} : ShiftOp → BitVec n → Nat → BitVec n
  | left, a, count => a <<< count
  | right, a, count => a.sshiftRight count
  | unsignedRight, a, count => a >>> count

/-- The shift of a number that is taken to have the given length. -/
def onNumbers (length : Nat) : ShiftOp → Int → Nat → Int
  | left, a, count => a * 2 ^ count
  | right, a, count => a / 2 ^ count
  | unsignedRight, a, count => a % 2 ^ length / 2 ^ count

end ShiftOp

namespace Bits

variable {n : Nat}

theorem getLsbD_ofInt (i : Int) (k : Nat) :
    (BitVec.ofInt n i).getLsbD k = (decide (k < n) && i.testBit k) := by
  cases i with
  | ofNat m =>
      change (BitVec.ofNat n m).getLsbD k = _
      rw [BitVec.getLsbD_ofNat]
      rfl
  | negSucc m =>
      rw [BitVec.ofInt_negSucc_eq_not_ofNat, BitVec.getLsbD_not, BitVec.getLsbD_ofNat]
      change _ = (decide (k < n) && !m.testBit k)
      cases decide (k < n) <;> rfl

theorem ofInt_bmod (i : Int) : BitVec.ofInt n (i.bmod (2 ^ n)) = BitVec.ofInt n i := by
  apply BitVec.eq_of_toInt_eq
  rw [BitVec.toInt_ofInt, BitVec.toInt_ofInt, Int.bmod_bmod]

theorem ofInt_and (a b : Int) :
    BitVec.ofInt n (a.land b) = BitVec.ofInt n a &&& BitVec.ofInt n b := by
  apply BitVec.eq_of_getLsbD_eq
  intro k hk
  rw [BitVec.getLsbD_and]
  simp only [getLsbD_ofInt, Int.testBit_land, hk, decide_true, Bool.true_and]

theorem ofInt_or (a b : Int) :
    BitVec.ofInt n (a.lor b) = BitVec.ofInt n a ||| BitVec.ofInt n b := by
  apply BitVec.eq_of_getLsbD_eq
  intro k hk
  rw [BitVec.getLsbD_or]
  simp only [getLsbD_ofInt, Int.testBit_lor, hk, decide_true, Bool.true_and]

theorem ofInt_xor (a b : Int) :
    BitVec.ofInt n (a.xor b) = BitVec.ofInt n a ^^^ BitVec.ofInt n b := by
  apply BitVec.eq_of_getLsbD_eq
  intro k hk
  rw [BitVec.getLsbD_xor]
  simp only [getLsbD_ofInt, Int.testBit_lxor, hk, decide_true, Bool.true_and]

/-- An operation on words is the one on the numbers that they stand for. -/
theorem onBits_ofInt (op : IntegerOp) {a b : Int} (ha : (BitVec.ofInt n a).toInt = a)
    (hb : (BitVec.ofInt n b).toInt = b) :
    op.onBits (BitVec.ofInt n a) (BitVec.ofInt n b) = BitVec.ofInt n (op.onNumbers a b) := by
  cases op with
  | add => exact (BitVec.ofInt_add a b).symm
  | sub =>
      change _ = BitVec.ofInt n (a - b)
      rw [Int.sub_eq_add_neg, BitVec.ofInt_add, BitVec.ofInt_neg, ← BitVec.sub_eq_add_neg]
      rfl
  | mul => exact (BitVec.ofInt_mul a b).symm
  | div =>
      apply BitVec.eq_of_toInt_eq
      change (BitVec.sdiv _ _).toInt = (BitVec.ofInt n (a.tdiv b)).toInt
      rw [BitVec.toInt_sdiv, ha, hb, BitVec.toInt_ofInt]
  | rem =>
      change BitVec.srem _ _ = BitVec.ofInt n (a.tmod b)
      rw [← BitVec.ofInt_toInt (x := BitVec.srem _ _), BitVec.toInt_srem, ha, hb]
  | and => exact (ofInt_and a b).symm
  | or => exact (ofInt_or a b).symm
  | xor => exact (ofInt_xor a b).symm

theorem shift_ofInt (op : ShiftOp) {a : Int} (ha : (BitVec.ofInt n a).toInt = a) (count : Nat) :
    op.onBits (BitVec.ofInt n a) count = BitVec.ofInt n (op.onNumbers n a count) := by
  cases op with
  | left =>
      have hpow : BitVec.ofInt n (2 ^ count) = BitVec.twoPow n count := by
        rw [← Nat.cast_ofNat (n := 2), ← Nat.cast_pow, BitVec.ofInt_natCast]
        apply BitVec.eq_of_toNat_eq
        rw [BitVec.toNat_ofNat, BitVec.toNat_twoPow]
      change BitVec.ofInt n a <<< count = BitVec.ofInt n (a * 2 ^ count)
      rw [BitVec.ofInt_mul, BitVec.shiftLeft_eq_mul_twoPow, hpow]
  | right =>
      change BitVec.sshiftRight _ count = BitVec.ofInt n (a / 2 ^ count)
      rw [BitVec.sshiftRight_eq, ha, Int.shiftRight_eq_div_pow, Nat.cast_pow, Nat.cast_ofNat]
  | unsignedRight =>
      have hword : a % 2 ^ n = ((BitVec.ofInt n a).toNat : Int) := by
        rw [BitVec.toNat_ofInt, Int.toNat_of_nonneg (Int.emod_nonneg a (by positivity))]
        push_cast
        rfl
      change BitVec.ofInt n a >>> count = BitVec.ofInt n (a % 2 ^ n / 2 ^ count)
      rw [hword, ← Nat.cast_ofNat (n := 2), ← Nat.cast_pow, ← Int.natCast_div,
        BitVec.ofInt_natCast]
      apply BitVec.eq_of_toNat_eq
      rw [BitVec.toNat_ushiftRight, BitVec.toNat_ofNat, Nat.shiftRight_eq_div_pow]
      exact (Nat.mod_eq_of_lt ((Nat.div_le_self _ _).trans_lt (BitVec.isLt _))).symm

end Bits

/-!
# Widths
-/

inductive Width where
  | narrow
  | wide

namespace Width

def bits : Width → Nat
  | narrow => 32
  | wide => 64

def least (w : Width) : Int :=
  -2 ^ (w.bits - 1)

def Fits (w : Width) (n : Int) : Prop :=
  w.least ≤ n ∧ n < -w.least

instance (w : Width) (n : Int) : Decidable (w.Fits n) :=
  inferInstanceAs (Decidable (w.least ≤ n ∧ n < -w.least))

/-- The number that fits and differs by a multiple of the count of words. -/
def wrap (w : Width) (n : Int) : Int :=
  n.bmod (2 ^ w.bits)

def value : Width → Int → Value
  | narrow, n => .int (Int32.ofInt n)
  | wide, n => .long (Int64.ofInt n)

def ofBits : (w : Width) → BitVec w.bits → Value
  | narrow, word => .int (.ofBitVec word)
  | wide, word => .long (.ofBitVec word)

def code : Width → UInt8 → UInt8
  | narrow, first => first
  | wide, first => first + 1

variable {w : Width} {n : Int}

theorem value_eq_ofBits (w : Width) (n : Int) : w.value n = w.ofBits (BitVec.ofInt w.bits n) := by
  cases w <;> rfl

theorem value_wrap (w : Width) (n : Int) : w.value (w.wrap n) = w.value n := by
  rw [value_eq_ofBits, value_eq_ofBits, wrap, Bits.ofInt_bmod]

theorem bits_pos (w : Width) : 0 < w.bits := by
  cases w <;> decide

theorem toInt_ofInt (h : w.Fits n) : (BitVec.ofInt w.bits n).toInt = n := by
  obtain ⟨hlow, hhigh⟩ := h
  rw [least, neg_neg] at hhigh
  exact BitVec.toInt_ofInt_eq_self w.bits_pos hlow hhigh

theorem wrap_of_fits (h : w.Fits n) : w.wrap n = n := by
  rw [wrap, ← BitVec.toInt_ofInt, toInt_ofInt h]

theorem fits_toInt (word : BitVec w.bits) : w.Fits word.toInt := by
  have hlow := word.le_toInt
  have hhigh := word.toInt_lt
  refine ⟨hlow, ?_⟩
  rw [least, neg_neg]
  exact hhigh

theorem fits_wrap (w : Width) (n : Int) : w.Fits (w.wrap n) := by
  rw [wrap, ← BitVec.toInt_ofInt]
  exact fits_toInt _

theorem existsUnique_fits (v : Value) (h : v.kind = (w.value 0).kind) :
    ∃! n, w.Fits n ∧ w.value n = v := by
  have hword : ∃ word, w.ofBits word = v := by
    cases w with
    | narrow =>
        cases v with
        | int number => exact ⟨number.toBitVec, rfl⟩
        | _ => cases h
    | wide =>
        cases v with
        | long number => exact ⟨number.toBitVec, rfl⟩
        | _ => cases h
  obtain ⟨word, rfl⟩ := hword
  refine ⟨word.toInt, ⟨fits_toInt word, ?_⟩, ?_⟩
  · rw [value_eq_ofBits, BitVec.ofInt_toInt]
  · rintro n ⟨hfits, hn⟩
    rw [value_eq_ofBits] at hn
    have hbits : BitVec.ofInt w.bits n = word := by
      cases w with
      | narrow =>
          cases hn
          rfl
      | wide =>
          cases hn
          rfl
    rw [← hbits, toInt_ofInt hfits]

end Width

/-!
# Division
-/

/-- Quotient and remainder of a division toward zero, where the quotient wraps. -/
structure Width.Divides (w : Width) (a b q r : Int) : Prop where
  quotient_fits : w.Fits q
  remainder_fits : w.Fits r
  congruent : a ≡ q * b + r [ZMOD 2 ^ w.bits]
  small : |r| < |b|
  signed : r = 0 ∨ r.sign = a.sign
  /-- There is one quotient that does not fit. -/
  exact_of_fits : ¬ (a = w.least ∧ b = -1) → a = q * b + r
  wrapped : a = w.least → b = -1 → q = a ∧ r = 0

namespace Width

variable {w : Width} {a b : Int}

theorem wrap_modEq (w : Width) (n : Int) : w.wrap n ≡ n [ZMOD 2 ^ w.bits] := by
  have h := Int.bmod_emod (x := n) (m := 2 ^ w.bits)
  rw [Nat.cast_pow, Nat.cast_ofNat] at h
  exact h

theorem abs_tmod_lt (a : Int) (hb : b ≠ 0) : |a.tmod b| < |b| := by
  rw [Int.abs_eq_natAbs, Int.abs_eq_natAbs, Int.natAbs_tmod]
  exact_mod_cast Nat.mod_lt _ (Int.natAbs_pos.mpr hb)

theorem fits_tdiv (ha : w.Fits a) (hb : b ≠ 0) (hover : ¬ (a = w.least ∧ b = -1)) :
    w.Fits (a.tdiv b) := by
  obtain ⟨hlow, hhigh⟩ := ha
  have hq : (a.tdiv b).natAbs = a.natAbs / b.natAbs := Int.natAbs_tdiv a b
  have hone : b = 1 ∨ b = -1 ∨ 2 ≤ b.natAbs := by omega
  rcases hone with rfl | rfl | htwo
  · rw [Int.tdiv_one]
    exact ⟨hlow, hhigh⟩
  · have hne : a ≠ w.least := fun ha => hover ⟨ha, rfl⟩
    rw [Int.tdiv_neg, Int.tdiv_one]
    unfold Fits
    omega
  · have hhalf : a.natAbs / b.natAbs ≤ a.natAbs / 2 := Nat.div_le_div_left htwo (by decide)
    have hpos : w.least < 0 := by cases w <;> decide
    unfold Fits
    omega

theorem divides_tdiv (ha : w.Fits a) (hb : w.Fits b) (hzero : b ≠ 0) :
    w.Divides a b (w.wrap (a.tdiv b)) (a.tmod b) := by
  have hsmall := abs_tmod_lt a hzero
  have hidentity : a.tdiv b * b + a.tmod b = a := by
    rw [mul_comm]
    exact Int.mul_tdiv_add_tmod a b
  refine ⟨w.fits_wrap _, ?_, ?_, hsmall, ?_, ?_, ?_⟩
  · obtain ⟨hlow, hhigh⟩ := hb
    have hbound : |b| ≤ -w.least := abs_le.mpr ⟨by omega, by omega⟩
    obtain ⟨hneg, hpos⟩ := abs_lt.mp (hsmall.trans_le hbound)
    exact ⟨by omega, hpos⟩
  · have hwrapped : w.wrap (a.tdiv b) * b + a.tmod b ≡ a.tdiv b * b + a.tmod b
        [ZMOD 2 ^ w.bits] := ((w.wrap_modEq _).mul_right b).add_right _
    rw [hidentity] at hwrapped
    exact hwrapped.symm
  · rw [← Int.sign_eq_zero_iff_zero, Int.sign_tmod]
    by_cases hdvd : b ∣ a
    · exact .inl (if_pos hdvd)
    · exact .inr (if_neg hdvd)
  · intro hover
    rw [wrap_of_fits (fits_tdiv ha hzero hover), hidentity]
  · rintro rfl rfl
    cases w <;> decide

end Width

/-!
# Operations on the stack
-/

namespace IntegerOp

def instruction : Width → IntegerOp → Instruction
  | .narrow => .intOp
  | .wide => .longOp

def apply : Width → IntegerOp → StackM Unit
  | .narrow => applyInt
  | .wide => applyLong

def code : IntegerOp → UInt8
  | add => 0x60
  | sub => 0x64
  | mul => 0x68
  | div => 0x6C
  | rem => 0x70
  | and => 0x7E
  | or => 0x80
  | xor => 0x82

def division? : IntegerOp → Option Division
  | div => some .quotient
  | rem => some .remainder
  | _ => none

def checked {n : Nat} (op : IntegerOp) (a b : BitVec n) : Except Fault (BitVec n) :=
  match op.division? with
  | some division => if b = 0 then .error (.zeroDivisor division) else .ok (op.onBits a b)
  | none => .ok (op.onBits a b)

end IntegerOp

namespace ShiftOp

def instruction : Width → ShiftOp → Instruction
  | .narrow => .intShift
  | .wide => .longShift

def apply : Width → ShiftOp → StackM Unit
  | .narrow => applyInt
  | .wide => applyLong

def code : ShiftOp → UInt8
  | left => 0x78
  | right => 0x7A
  | unsignedRight => 0x7C

end ShiftOp

namespace Decoder

theorem instruction_integer (w : Width) (op : IntegerOp) :
    instruction (w.code op.code) = pure (op.instruction w) := by
  cases w <;> cases op <;> rfl

theorem instruction_shift (w : Width) (op : ShiftOp) :
    instruction (w.code op.code) = pure (op.instruction w) := by
  cases w <;> cases op <;> rfl

theorem instruction_conversion {position : Nat} (h : position < 15) :
    instruction (UInt8.ofNat (0x85 + position)) = pure (.convert (conversionAt position)) := by
  have hcode : (UInt8.ofNat (0x85 + position)).toNat = 0x85 + position :=
    UInt8.toNat_ofNat_of_lt' (by omega : 0x85 + position < 2 ^ 8)
  unfold instruction
  dsimp only
  rw [hcode]
  iterate 10 rw [if_neg (by omega)]
  rw [if_pos (by omega), Nat.add_sub_cancel_left]

end Decoder

namespace OperandStack

def settled (s : OperandStack) : Except Fault Value → EStateM.Result Fault OperandStack Unit
  | .ok value => .ok () (s.append value)
  | .error fault => .error fault s

end OperandStack

namespace IntegerOp

theorem guard_map {α β : Type} {p q : Prop} [Decidable p] [Decidable q] (h : p ↔ q)
    (fault : Fault) (f : α → β) (a : α) :
    (if p then .error fault else .ok (f a)) =
      f <$> (if q then .error fault else .ok a : Except Fault α) := by
  by_cases hq : q
  · rw [if_pos hq, if_pos (h.mpr hq)]
    rfl
  · rw [if_neg hq, if_neg (mt h.mp hq)]
    rfl

theorem onInt_ofBitVec (op : IntegerOp) (a b : BitVec 32) :
    op.onInt (.ofBitVec a) (.ofBitVec b) = Int32.ofBitVec <$> op.checked a b := by
  have hzero : Int32.ofBitVec b = 0 ↔ b = 0 :=
    ⟨congrArg Int32.toBitVec, congrArg Int32.ofBitVec⟩
  cases op with
  | div => exact guard_map hzero (.zeroDivisor .quotient) Int32.ofBitVec (a.sdiv b)
  | rem => exact guard_map hzero (.zeroDivisor .remainder) Int32.ofBitVec (a.srem b)
  | _ => rfl

theorem onLong_ofBitVec (op : IntegerOp) (a b : BitVec 64) :
    op.onLong (.ofBitVec a) (.ofBitVec b) = Int64.ofBitVec <$> op.checked a b := by
  have hzero : Int64.ofBitVec b = 0 ↔ b = 0 :=
    ⟨congrArg Int64.toBitVec, congrArg Int64.ofBitVec⟩
  cases op with
  | div => exact guard_map hzero (.zeroDivisor .quotient) Int64.ofBitVec (a.sdiv b)
  | rem => exact guard_map hzero (.zeroDivisor .remainder) Int64.ofBitVec (a.srem b)
  | _ => rfl

theorem applyInt_append (op : IntegerOp) (s : OperandStack) (a b : BitVec 32) :
    op.applyInt ((s.append (.int (.ofBitVec a))).append (.int (.ofBitVec b))) =
      s.settled ((fun word => .int (.ofBitVec word)) <$> op.checked a b) := by
  unfold applyInt
  rw [bind_of_ok (popInt_append _ _), bind_of_ok (popInt_append _ _), onInt_ofBitVec]
  cases op.checked a b with
  | ok word => rfl
  | error fault => rfl

theorem applyLong_append (op : IntegerOp) (s : OperandStack) (a b : BitVec 64) :
    op.applyLong ((s.append (.long (.ofBitVec a))).append (.long (.ofBitVec b))) =
      s.settled ((fun word => .long (.ofBitVec word)) <$> op.checked a b) := by
  unfold applyLong
  rw [bind_of_ok (popLong_append _ _), bind_of_ok (popLong_append _ _), onLong_ofBitVec]
  cases op.checked a b with
  | ok word => rfl
  | error fault => rfl

theorem apply_append (w : Width) (op : IntegerOp) (s : OperandStack) (a b : BitVec w.bits) :
    op.apply w ((s.append (w.ofBits a)).append (w.ofBits b)) =
      s.settled (w.ofBits <$> op.checked a b) := by
  cases w with
  | narrow => exact applyInt_append op s a b
  | wide => exact applyLong_append op s a b

end IntegerOp

namespace ShiftOp

theorem toInt_emod_two_pow {length : Nat} (h : length ≤ 32) (count : Int32) :
    count.toInt % 2 ^ length = ((count.toBitVec.toNat % 2 ^ length : Nat) : Int) := by
  have hdvd : (2 ^ length : Int) ∣ (2 ^ 32 : Nat) := by
    exact_mod_cast pow_dvd_pow 2 h
  change count.toBitVec.toInt % 2 ^ length = _
  rw [BitVec.toInt_eq_toNat_bmod, ← Int.emod_emod_of_dvd _ hdvd, Int.bmod_emod,
    Int.emod_emod_of_dvd _ hdvd]
  push_cast
  rfl

/-- A mask of low bits keeps the remainder of the count. -/
theorem and_mask (length : Nat) (h : length ≤ 32) (count : Int32) :
    (count &&& Int32.ofNat (2 ^ length - 1)).toBitVec =
      BitVec.ofNat 32 (count.toInt % 2 ^ length).toNat := by
  have hmask : 2 ^ length - 1 < 2 ^ 32 := by
    have hpow : 2 ^ length ≤ 2 ^ 32 := Nat.pow_le_pow_right (by decide) h
    omega
  apply BitVec.eq_of_toNat_eq
  change (count.toBitVec &&& BitVec.ofNat 32 (2 ^ length - 1)).toNat = _
  rw [toInt_emod_two_pow h, Int.toNat_natCast, BitVec.toNat_and, BitVec.toNat_ofNat,
    Nat.mod_eq_of_lt hmask, Nat.and_two_pow_sub_one_eq_mod, BitVec.toNat_ofNat]
  exact (Nat.mod_eq_of_lt ((Nat.mod_le _ _).trans_lt count.toBitVec.isLt)).symm

theorem onInt_ofBitVec (op : ShiftOp) (a : BitVec 32) (count : Int32) :
    op.onInt (.ofBitVec a) count = .ofBitVec (op.onBits a (count.toInt % 32).toNat) := by
  have hmask : (count &&& 0x1F).toBitVec = BitVec.ofNat 32 (count.toInt % 32).toNat :=
    and_mask 5 (by decide) count
  have hlt : (count.toInt % 32).toNat < 32 := by omega
  generalize (count.toInt % 32).toNat = k at hmask hlt
  have hall : ∀ k : Fin 32, ((BitVec.ofNat 32 k.val).smod 32).toNat = k ∧
      (BitVec.ofNat 32 k.val % 32).toNat = k := by decide
  obtain ⟨hsmod, humod⟩ := hall ⟨k, hlt⟩
  rw [← hmask] at hsmod humod
  apply Int32.toBitVec_inj.mp
  cases op with
  | left =>
      change (Int32.ofBitVec a <<< (count &&& 0x1F)).toBitVec = a <<< k
      rw [Int32.toBitVec_shiftLeft, BitVec.shiftLeft_eq', hsmod, Int32.toBitVec_ofBitVec]
  | right =>
      change (Int32.ofBitVec a >>> (count &&& 0x1F)).toBitVec = a.sshiftRight k
      rw [Int32.toBitVec_shiftRight, BitVec.sshiftRight', hsmod, Int32.toBitVec_ofBitVec]
  | unsignedRight =>
      change a >>> ((count &&& 0x1F).toBitVec % 32) = a >>> k
      rw [BitVec.ushiftRight_eq', humod]

theorem onLong_ofBitVec (op : ShiftOp) (a : BitVec 64) (count : Int32) :
    op.onLong (.ofBitVec a) count = .ofBitVec (op.onBits a (count.toInt % 64).toNat) := by
  have hmask : (count &&& 0x3F).toBitVec = BitVec.ofNat 32 (count.toInt % 64).toNat :=
    and_mask 6 (by decide) count
  have hlt : (count.toInt % 64).toNat < 64 := by omega
  generalize (count.toInt % 64).toNat = k at hmask hlt
  have hall : ∀ k : Fin 64, (((BitVec.ofNat 32 k.val).signExtend 64).smod 64).toNat = k ∧
      ((BitVec.ofNat 32 k.val).signExtend 64 % 64).toNat = k := by decide
  obtain ⟨hsmod, humod⟩ := hall ⟨k, hlt⟩
  rw [← hmask, ← Int32.toBitVec_toInt64] at hsmod humod
  apply Int64.toBitVec_inj.mp
  cases op with
  | left =>
      change (Int64.ofBitVec a <<< (count &&& 0x3F).toInt64).toBitVec = a <<< k
      rw [Int64.toBitVec_shiftLeft, BitVec.shiftLeft_eq', hsmod, Int64.toBitVec_ofBitVec]
  | right =>
      change (Int64.ofBitVec a >>> (count &&& 0x3F).toInt64).toBitVec = a.sshiftRight k
      rw [Int64.toBitVec_shiftRight, BitVec.sshiftRight', hsmod, Int64.toBitVec_ofBitVec]
  | unsignedRight =>
      change a >>> ((count &&& 0x3F).toInt64.toBitVec % 64) = a >>> k
      rw [BitVec.ushiftRight_eq', humod]

theorem applyInt_append (op : ShiftOp) (s : OperandStack) (a : BitVec 32) (count : Int32) :
    op.applyInt ((s.append (.int (.ofBitVec a))).append (.int count)) =
      s.settled (.ok (.int (.ofBitVec (op.onBits a (count.toInt % 32).toNat)))) := by
  unfold applyInt
  rw [bind_of_ok (popInt_append _ _), bind_of_ok (popInt_append _ _), onInt_ofBitVec]
  rfl

theorem applyLong_append (op : ShiftOp) (s : OperandStack) (a : BitVec 64) (count : Int32) :
    op.applyLong ((s.append (.long (.ofBitVec a))).append (.int count)) =
      s.settled (.ok (.long (.ofBitVec (op.onBits a (count.toInt % 64).toNat)))) := by
  unfold applyLong
  rw [bind_of_ok (popInt_append _ _), bind_of_ok (popLong_append _ _), onLong_ofBitVec]
  rfl

theorem apply_append (w : Width) (op : ShiftOp) (s : OperandStack) (a : BitVec w.bits)
    (count : Int32) :
    op.apply w ((s.append (w.ofBits a)).append (.int count)) =
      s.settled (.ok (w.ofBits (op.onBits a (count.toInt % w.bits).toNat))) := by
  cases w with
  | narrow => exact applyInt_append op s a count
  | wide => exact applyLong_append op s a count

end ShiftOp

/-!
# Conversions and the comparison
-/

namespace Width

variable {n : Int}

theorem toInt_int32 (h : narrow.Fits n) : (Int32.ofInt n).toInt = n :=
  toInt_ofInt h

theorem toInt_int64 (h : wide.Fits n) : (Int64.ofInt n).toInt = n :=
  toInt_ofInt h

end Width

namespace OperandStack

variable {n : Int} (s : OperandStack)

theorem intToLong_append (h : Width.narrow.Fits n) :
    (Conversion.between .int .long).apply (s.append (Width.narrow.value n)) =
      s.settled (.ok (Width.wide.value n)) := by
  have hlong : (Int32.ofInt n).toInt64 = Int64.ofInt n :=
    Int32.toInt64_ofInt h.1 (Int.le_of_lt_add_one h.2)
  refine (bind_of_ok (popInt_append s (Int32.ofInt n))).trans ?_
  rw [hlong]
  rfl

theorem longToInt_append (n : Int) :
    (Conversion.between .long .int).apply (s.append (Width.wide.value n)) =
      s.settled (.ok (Width.narrow.value n)) := by
  refine (bind_of_ok (popLong_append s (Int64.ofInt n))).trans ?_
  rw [Int64.toInt32_ofInt]
  rfl

theorem intToByte_append (n : Int) :
    Conversion.intToByte.apply (s.append (Width.narrow.value n)) =
      s.settled (.ok (Width.narrow.value (n.bmod (2 ^ 8)))) := by
  have hlow : -2 ^ 7 ≤ n.bmod (2 ^ 8) := Int.le_bmod (by decide)
  have hhigh : n.bmod (2 ^ 8) < 2 ^ 7 := Int.bmod_lt (by decide)
  have hfits : Width.narrow.Fits (n.bmod (2 ^ 8)) :=
    ⟨Int.le_trans (by decide) hlow, Int.lt_trans hhigh (by decide)⟩
  have hbyte : (Int32.ofInt n).toInt8.toInt32 = Int32.ofInt (n.bmod (2 ^ 8)) := by
    apply Int32.toInt_inj.mp
    rw [Int8.toInt_toInt32, Int32.toInt8_ofInt, Int8.toInt_ofInt, Width.toInt_int32 hfits]
    rfl
  refine (bind_of_ok (popInt_append s (Int32.ofInt n))).trans ?_
  rw [hbyte]
  rfl

theorem intToShort_append (n : Int) :
    Conversion.intToShort.apply (s.append (Width.narrow.value n)) =
      s.settled (.ok (Width.narrow.value (n.bmod (2 ^ 16)))) := by
  have hlow : -2 ^ 15 ≤ n.bmod (2 ^ 16) := Int.le_bmod (by decide)
  have hhigh : n.bmod (2 ^ 16) < 2 ^ 15 := Int.bmod_lt (by decide)
  have hfits : Width.narrow.Fits (n.bmod (2 ^ 16)) :=
    ⟨Int.le_trans (by decide) hlow, Int.lt_trans hhigh (by decide)⟩
  have hshort : (Int32.ofInt n).toInt16.toInt32 = Int32.ofInt (n.bmod (2 ^ 16)) := by
    apply Int32.toInt_inj.mp
    rw [Int16.toInt_toInt32, Int32.toInt16_ofInt, Int16.toInt_ofInt, Width.toInt_int32 hfits]
    rfl
  refine (bind_of_ok (popInt_append s (Int32.ofInt n))).trans ?_
  rw [hshort]
  rfl

theorem intToChar_append (h : Width.narrow.Fits n) :
    Conversion.intToChar.apply (s.append (Width.narrow.value n)) =
      s.settled (.ok (Width.narrow.value (n % 2 ^ 16))) := by
  have hnonneg : 0 ≤ n % 2 ^ 16 := Int.emod_nonneg n (by decide)
  have hchar : ((Int32.ofInt n).toUInt32 &&& 0xFFFF).toInt32 = Int32.ofInt (n % 2 ^ 16) := by
    apply Int32.toBitVec_inj.mp
    refine (ShiftOp.and_mask 16 (by decide) (Int32.ofInt n)).trans ?_
    rw [Width.toInt_int32 h, ← BitVec.ofInt_natCast, Int.toNat_of_nonneg hnonneg]
    rfl
  refine (bind_of_ok (popInt_append s (Int32.ofInt n))).trans ?_
  rw [hchar]
  rfl

theorem compareLongs_append {a b : Int} (ha : Width.wide.Fits a) (hb : Width.wide.Fits b) :
    compareLongs ((s.append (Width.wide.value a)).append (Width.wide.value b)) =
      s.settled (.ok (Width.narrow.value (a - b).sign)) := by
  have horder : orderCode (compareLong (Int64.ofInt a) (Int64.ofInt b)) =
      Int32.ofInt (a - b).sign := by
    unfold compareLong
    rw [Width.toInt_int64 ha, Width.toInt_int64 hb]
    rcases lt_trichotomy a b with hlt | rfl | hgt
    · rw [compare_lt_iff_lt.mpr hlt, Int.sign_eq_neg_one_of_neg (by omega)]
      rfl
    · rw [compare_eq_iff_eq.mpr rfl, sub_self]
      rfl
    · rw [compare_gt_iff_gt.mpr hgt, Int.sign_eq_one_of_pos (by omega)]
      rfl
  refine (bind_of_ok (popLong_append _ (Int64.ofInt b))).trans ?_
  refine (bind_of_ok (popLong_append s (Int64.ofInt a))).trans ?_
  rw [horder]
  rfl

end OperandStack

/-!
# Instructions
-/

/-- Wherever the code is the next one and the operands are on top of the stack, the step takes them
off and leaves the result in their place, or nothing if it fails.  The variables stay. -/
def Computes (code : UInt8) (operands : List Value) (result : Except Fault Value) : Prop :=
  ∀ (f : Frame) (s : OperandStack), f.Faces [code] → f.stack = operands.foldl append s →
    match result with
    | .ok value => f.Does 1 (.ok ()) (s.append value) f.locals
    | .error fault => f.Does 1 (.error fault) s f.locals

namespace Computes

variable {code : UInt8} {i : Instruction} {x : StackM Unit} {operands : List Value}
  {result : Except Fault Value}

/-- An operation on the stack that is the meaning of a code is what the step does. -/
theorem of_apply (hdecode : Decoder.instruction code = pure i)
    (hexecute : ∀ load, i.execute load = Exec.thenNext (liftM x))
    (happly : ∀ s, x (operands.foldl append s) = settled s result) :
    Computes code operands result := by
  intro f s hcode hstack
  have hnext := hcode.next (Decoder.reads_of_pure hdecode)
  have hdone := happly s
  rw [← hstack] at hdone
  cases result with
  | ok value =>
      intro load tracing m
      obtain ⟨log, hstep⟩ := Exec.step_eq_execute hnext load tracing m
      refine ⟨log, (hstep f.stack).trans ?_⟩
      rw [hexecute]
      apply Exec.thenNext_of_ok
      rw [Thread.onStack_apply, hdone]
      rfl
  | error fault =>
      intro load tracing m
      obtain ⟨log, hstep⟩ := Exec.step_eq_execute hnext load tracing m
      refine ⟨log, (hstep f.stack).trans ?_⟩
      rw [hexecute]
      apply Exec.thenNext_of_error
      rw [Thread.onStack_apply, hdone]
      rfl

variable {w : Width} {a b : Int}

theorem integer (op : IntegerOp) (ha : w.Fits a) (hb : w.Fits b)
    (hdefined : b = 0 → op.division? = none) :
    Computes (w.code op.code) [w.value a, w.value b] (.ok (w.value (op.onNumbers a b))) := by
  have hchecked : op.checked (BitVec.ofInt w.bits a) (BitVec.ofInt w.bits b) =
      .ok (BitVec.ofInt w.bits (op.onNumbers a b)) := by
    rw [← Bits.onBits_ofInt op (Width.toInt_ofInt ha) (Width.toInt_ofInt hb)]
    unfold IntegerOp.checked
    cases hop : op.division? with
    | none => rfl
    | some division =>
        refine if_neg fun hzero => ?_
        have hb0 : b = 0 := by
          rw [← Width.toInt_ofInt hb, hzero]
          exact BitVec.toInt_zero
        rw [hdefined hb0] at hop
        cases hop
  refine of_apply (Decoder.instruction_integer w op) (x := op.apply w) ?_ ?_
  · intro load
    cases w <;> rfl
  · intro s
    change op.apply w ((s.append (w.value a)).append (w.value b)) = _
    rw [Width.value_eq_ofBits, Width.value_eq_ofBits, op.apply_append, hchecked,
      Width.value_eq_ofBits]
    rfl

theorem zeroDivisor (op : IntegerOp) {division : Division} (hop : op.division? = some division)
    (a : Int) :
    Computes (w.code op.code) [w.value a, w.value 0] (.error (.zeroDivisor division)) := by
  have hchecked : op.checked (BitVec.ofInt w.bits a) (BitVec.ofInt w.bits 0) =
      .error (.zeroDivisor division) := by
    unfold IntegerOp.checked
    rw [hop]
    exact if_pos rfl
  refine of_apply (Decoder.instruction_integer w op) (x := op.apply w) ?_ ?_
  · intro load
    cases w <;> rfl
  · intro s
    change op.apply w ((s.append (w.value a)).append (w.value 0)) = _
    rw [Width.value_eq_ofBits, Width.value_eq_ofBits, op.apply_append, hchecked]
    rfl

theorem shift (op : ShiftOp) {count : Int} (ha : w.Fits a) (hcount : Width.narrow.Fits count) :
    Computes (w.code op.code) [w.value a, Width.narrow.value count]
      (.ok (w.value (op.onNumbers w.bits a (count % w.bits).toNat))) := by
  refine of_apply (Decoder.instruction_shift w op) (x := op.apply w) ?_ ?_
  · intro load
    cases w <;> rfl
  · intro s
    change op.apply w ((s.append (w.value a)).append (.int (Int32.ofInt count))) = _
    rw [Width.value_eq_ofBits, op.apply_append, Width.toInt_int32 hcount,
      Bits.shift_ofInt op (Width.toInt_ofInt ha), Width.value_eq_ofBits]

theorem conversion (position : Nat) (hposition : position < 15)
    (happly : ∀ s, (Decoder.conversionAt position).apply (operands.foldl append s) =
      settled s result) :
    Computes (UInt8.ofNat (0x85 + position)) operands result :=
  of_apply (Decoder.instruction_conversion hposition) (fun _ => rfl) happly

end Computes

/-- Integers are added, subtracted, multiplied and combined bit by bit as the numbers are, and the
result is reduced to one that fits.  Only the low bits of a count tell how far a shift goes.  A
division fails for a zero divisor alone, and gives quotient and remainder for every other one.
Conversions keep a number that fits and reduce another one, and a comparison gives the sign of the
difference. -/
theorem Width.integers_computed :
    (∀ (w : Width) (op : IntegerOp) (a b : Int), op ≠ .div → op ≠ .rem → w.Fits a → w.Fits b →
      Computes (w.code op.code) [w.value a, w.value b]
        (.ok (w.value (w.wrap (op.onNumbers a b))))) ∧
    (∀ (w : Width) (op : ShiftOp) (a count : Int), w.Fits a → narrow.Fits count →
      Computes (w.code op.code) [w.value a, narrow.value count]
        (.ok (w.value (w.wrap (op.onNumbers w.bits a (count % w.bits).toNat))))) ∧
    (∀ (w : Width) (a b : Int), w.Fits a → w.Fits b →
      (b = 0 →
        Computes (w.code IntegerOp.div.code) [w.value a, w.value b]
          (.error (.zeroDivisor .quotient)) ∧
        Computes (w.code IntegerOp.rem.code) [w.value a, w.value b]
          (.error (.zeroDivisor .remainder))) ∧
      (b ≠ 0 → ∃ q r, w.Divides a b q r ∧
        Computes (w.code IntegerOp.div.code) [w.value a, w.value b] (.ok (w.value q)) ∧
        Computes (w.code IntegerOp.rem.code) [w.value a, w.value b] (.ok (w.value r)))) ∧
    (∀ n, narrow.Fits n →
      Computes 0x85 [narrow.value n] (.ok (wide.value n)) ∧
      Computes 0x88 [wide.value n] (.ok (narrow.value n)) ∧
      Computes 0x91 [narrow.value n] (.ok (narrow.value (n.bmod (2 ^ 8)))) ∧
      Computes 0x92 [narrow.value n] (.ok (narrow.value (n % 2 ^ 16))) ∧
      Computes 0x93 [narrow.value n] (.ok (narrow.value (n.bmod (2 ^ 16))))) ∧
    (∀ n, wide.Fits n →
      Computes 0x88 [wide.value n] (.ok (narrow.value (n.bmod (2 ^ 32))))) ∧
    ∀ a b, wide.Fits a → wide.Fits b →
      Computes 0x94 [wide.value a, wide.value b] (.ok (narrow.value (a - b).sign)) := by
  refine ⟨?_, ?_, ?_, ?_, ?_, ?_⟩
  · intro w op a b hdiv hrem ha hb
    have hop : op.division? = none := by
      cases op with
      | div => exact absurd rfl hdiv
      | rem => exact absurd rfl hrem
      | _ => rfl
    rw [value_wrap]
    exact .integer op ha hb fun _ => hop
  · intro w op a count ha hcount
    rw [value_wrap]
    exact .shift op ha hcount
  · intro w a b ha hb
    constructor
    · rintro rfl
      exact ⟨.zeroDivisor .div rfl a, .zeroDivisor .rem rfl a⟩
    · intro hzero
      -- only the least number divided by minus one does not fit, and its quotient wraps
      refine ⟨_, _, divides_tdiv ha hb hzero, ?_, .integer .rem ha hb fun h => absurd h hzero⟩
      rw [value_wrap]
      exact .integer .div ha hb fun h => absurd h hzero
  · intro n hn
    exact ⟨.conversion 0 (by decide) fun s => intToLong_append s hn,
      .conversion 3 (by decide) fun s => longToInt_append s n,
      .conversion 12 (by decide) fun s => intToByte_append s n,
      .conversion 13 (by decide) fun s => intToChar_append s hn,
      .conversion 14 (by decide) fun s => intToShort_append s n⟩
  · intro n _
    have hwrap : narrow.value (n.bmod (2 ^ 32)) = narrow.value n := narrow.value_wrap n
    rw [hwrap]
    exact .conversion 3 (by decide) fun s => longToInt_append s n
  · intro a b ha hb
    exact .of_apply (x := compareLongs) rfl (fun _ => rfl) fun s => compareLongs_append s ha hb

namespace LongMinimum

/-- `ldiv; lrem; ishl; lcmp`. -/
def method : Method :=
  ⟨"A", "run", "(JJ)J", .ofWord 0x0009, ⟨[.long, .long], .long⟩, 4, 4,
    #[0x6D, 0x71, 0x78, 0x94], [], rfl⟩

def frame (pc : Nat) (stack : List Slot) : Frame :=
  { Frame.enter method (.mk ⟨"A", .ofWord 0x0021, [], [], [method]⟩ none []) ⟨"A", ⟨#[]⟩⟩ [] with
    pc, stack := ⟨stack⟩ }

/-- The least number is its own quotient by minus one, a divisor of zero is a fault, a count that
is too high or negative wraps, and the least number is below the greatest one. -/
theorem computed_there :
    (frame 0 [.int (-1), .int (-1), .int 0, .int Int32.minValue, .int 7]).Does 1 (.ok ())
      ⟨[.int 0, .int Int32.minValue, .int 7]⟩ (.ofArguments 4 []) ∧
    (frame 1 [.int 0, .int 0, .int 5, .int 0]).Does 1 (.error (.zeroDivisor .remainder)) .empty
      (.ofArguments 4 []) ∧
    (frame 2 [.int (-31), .int 3]).Does 1 (.ok ()) ⟨[.int 6]⟩ (.ofArguments 4 []) ∧
    (frame 3 [.int (-1), .int Int32.maxValue, .int 0, .int Int32.minValue]).Does 1 (.ok ())
      ⟨[.int (-1)]⟩ (.ofArguments 4 []) := by
  have hleast : Width.wide.Fits Width.wide.least := by decide
  have hminus : Width.wide.Fits (-1) := by decide
  have hzero : Width.wide.Fits 0 := by decide
  have hfive : Width.wide.Fits 5 := by decide
  have hgreatest : Width.wide.Fits (2 ^ 63 - 1) := by decide
  have hthree : Width.narrow.Fits 3 := by decide
  have hcount : Width.narrow.Fits (-31) := by decide
  refine ⟨?_, ?_, ?_, ?_⟩
  · obtain ⟨q, r, hdivides, hquotient, -⟩ :=
      (Width.integers_computed.2.2.1 .wide _ _ hleast hminus).2 (by decide)
    obtain ⟨rfl, -⟩ := hdivides.wrapped rfl rfl
    exact hquotient (frame 0 _) ⟨[.int 7]⟩ (by decide) rfl
  · exact ((Width.integers_computed.2.2.1 .wide 5 0 hfive hzero).1 rfl).2 (frame 1 _) .empty
      (by decide) rfl
  · exact Width.integers_computed.2.1 .narrow .left 3 (-31) hthree hcount (frame 2 _) .empty
      (by decide) rfl
  · exact Width.integers_computed.2.2.2.2.2 _ _ hleast hgreatest (frame 3 _) .empty (by decide) rfl

end LongMinimum
end Bytecode
