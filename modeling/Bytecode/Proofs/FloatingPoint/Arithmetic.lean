import Bytecode.FloatingPoint.Conversion
import Bytecode.Proofs.FloatingPoint.Rounding
import Mathlib.Algebra.Order.Floor.Semifield
import Mathlib.Data.Rat.Floor

/-!
# Arithmetic on words

The operations on words that stand for numbers give what their exact results round to, conversions
to integers cut off the fraction, and comparisons compare the numbers.
-/

namespace Bytecode
namespace FloatingPoint
namespace Format

variable {f : Format} {a b : ℕ} {x y : ℚ}

/-!
# Operands
-/

theorem eq_finite {d : Datum} (h : d.value? = some x) :
    ∃ negative m e, d = .finite negative m e ∧ x = oriented negative (m * 2 ^ e) := by
  cases d with
  | finite negative m e => exact ⟨negative, m, e, rfl, (Option.some.inj h).symm⟩
  | infinite negative => cases h
  | notANumber => cases h

theorem unpack_eq_notANumber_iff {word : ℕ} :
    f.unpack word = .notANumber ↔ f.isNaN word = true := by
  unfold unpack isNaN
  by_cases htop : f.exponentField word = f.topExponent
  · by_cases hzero : f.fractionField word = 0 <;> simp [htop, hzero]
  · simp only [htop, if_false, decide_false, Bool.false_and, Bool.false_eq_true, iff_false]
    split <;> nofun

theorem isNaN_of_value {word : ℕ} (h : (f.unpack word).value? = some x) : f.isNaN word = false := by
  rw [Bool.eq_false_iff, ne_eq, ← unpack_eq_notANumber_iff]
  intro hnan
  rw [hnan] at h
  cases h

theorem binary_of_values (op : Datum → Datum → ℕ) (ha : (f.unpack a).value? = some x)
    (hb : (f.unpack b).value? = some y) : f.binary op a b = op (f.unpack a) (f.unpack b) := by
  simp only [binary, isNaN_of_value ha, isNaN_of_value hb, Bool.false_eq_true, if_false]

theorem oriented_mul_right (negative : Bool) (x u : ℚ) :
    oriented negative x * u = oriented negative (x * u) := by
  cases negative
  · rfl
  · exact neg_mul x u

theorem cast_signed (negative : Bool) (n : ℕ) : (signed negative n : ℚ) = oriented negative n := by
  cases negative
  · exact Int.cast_natCast n
  · exact (Int.cast_neg _).trans (congrArg Neg.neg (Int.cast_natCast n))

theorem oriented_natAbs (n : ℤ) (u : ℚ) : oriented (n < 0) (n.natAbs * u) = n * u := by
  rw [← oriented_mul_right, ← cast_signed]
  congr 2
  unfold signed
  split
  next hn => exact (Int.eq_neg_comm.mp (Int.ofNat_natAbs_of_nonpos (of_decide_eq_true hn).le)).symm
  next hn => exact Int.natAbs_of_nonneg (not_lt.mp (of_decide_eq_false (Bool.eq_false_iff.mpr hn)))

theorem signed_shift (negative : Bool) (m : ℕ) {e unit : ℤ} (h : unit ≤ e) :
    (signed negative (m <<< (e - unit).toNat) : ℚ) * 2 ^ unit =
      oriented negative (m * 2 ^ e) := by
  obtain ⟨d, rfl⟩ := Int.le.dest h
  rw [cast_signed, oriented_mul_right, add_sub_cancel_left, Int.toNat_natCast, Nat.shiftLeft_eq,
    zpow_add₀ two_ne_zero, zpow_natCast]
  congr 1
  push_cast
  ring

/-!
# Sums and products
-/

theorem addFinite_rounds (hf : f.Proper) (na nb : Bool) (ma mb : ℕ) (ea eb : ℤ) :
    f.Rounds (oriented na (ma * 2 ^ ea) + oriented nb (mb * 2 ^ eb))
      (f.addFinite na ma ea nb mb eb) := by
  unfold addFinite
  rw [← signed_shift na ma (min_le_left ea eb), ← signed_shift nb mb (min_le_right ea eb),
    ← add_mul, ← Int.cast_add]
  dsimp only
  generalize signed na (ma <<< (ea - min ea eb).toNat) +
    signed nb (mb <<< (eb - min ea eb).toNat) = total
  by_cases hzero : total = 0
  · have hpack := pack_rounds hf (na && nb) 0 0
    rw [Nat.cast_zero, zero_mul, oriented_zero] at hpack
    rw [if_pos hzero, hzero, Int.cast_zero, zero_mul]
    exact hpack
  · rw [if_neg hzero, ← oriented_natAbs]
    exact pack_rounds hf _ _ _

theorem add_rounds (hf : f.Proper) (ha : (f.unpack a).value? = some x)
    (hb : (f.unpack b).value? = some y) : f.Rounds (x + y) (f.add a b) := by
  rw [add, binary_of_values _ ha hb]
  obtain ⟨na, ma, ea, hda, rfl⟩ := eq_finite ha
  obtain ⟨nb, mb, eb, hdb, rfl⟩ := eq_finite hb
  rw [hda, hdb]
  exact addFinite_rounds hf na nb ma mb ea eb

theorem oriented_not (negative : Bool) (x : ℚ) : oriented (!negative) x = -oriented negative x := by
  cases negative
  · rfl
  · exact (neg_neg x).symm

theorem sub_rounds (hf : f.Proper) (ha : (f.unpack a).value? = some x)
    (hb : (f.unpack b).value? = some y) : f.Rounds (x - y) (f.sub a b) := by
  rw [sub, binary_of_values _ ha hb]
  obtain ⟨na, ma, ea, hda, rfl⟩ := eq_finite ha
  obtain ⟨nb, mb, eb, hdb, rfl⟩ := eq_finite hb
  rw [hda, hdb, sub_eq_add_neg, ← oriented_not]
  exact addFinite_rounds hf na (!nb) ma mb ea eb

theorem oriented_mul (na nb : Bool) (x y : ℚ) :
    oriented na x * oriented nb y = oriented (na != nb) (x * y) := by
  cases na <;> cases nb
  · rfl
  · exact mul_neg x y
  · exact neg_mul x y
  · exact neg_mul_neg x y

theorem mul_rounds (hf : f.Proper) (ha : (f.unpack a).value? = some x)
    (hb : (f.unpack b).value? = some y) : f.Rounds (x * y) (f.mul a b) := by
  rw [mul, binary_of_values _ ha hb]
  obtain ⟨na, ma, ea, hda, rfl⟩ := eq_finite ha
  obtain ⟨nb, mb, eb, hdb, rfl⟩ := eq_finite hb
  have hproduct : (ma * 2 ^ ea * (mb * 2 ^ eb) : ℚ) = (ma * mb : ℕ) * 2 ^ (ea + eb) := by
    rw [zpow_add₀ two_ne_zero]
    push_cast
    ring
  rw [hda, hdb, oriented_mul, hproduct]
  exact pack_rounds hf _ _ _

/-!
# Quotients
-/

/-- A number that differs from an odd count of small units by less than one of them rounds as the
count does, if four such units fit into the unit of rounding. -/
theorem Counted.of_sticky {n k r d : ℕ} {z w : ℚ} (h : f.Counted (n * w) k r) (hw : 0 < w)
    (hunit : f.unitAt k = 2 ^ (d + 2) * w) (hodd : n % 2 = 1) (hz : |z - n| < 1) :
    f.Counted (z * w) k r := by
  obtain ⟨hbelow, habove⟩ := abs_lt.mp hz
  have hfour (m : ℕ) : m * 2 ^ (d + 2) = 2 * (m * (2 * 2 ^ d)) := by ring
  have hpower : (0 : ℚ) < 2 ^ (d + 2) := by positivity
  have hn : (1 : ℚ) ≤ n := by exact_mod_cast (show 1 ≤ n by omega)
  refine ⟨mul_nonneg (by linarith) hw.le, ?_, ?_, ?_⟩
  · refine h.low.imp_right fun hlow => ?_
    rw [hunit, ← mul_assoc] at hlow ⊢
    have hle : 2 ^ f.fractionBits * 2 ^ (d + 2) ≤ n := by
      exact_mod_cast le_of_mul_le_mul_right hlow hw
    have hlt : 2 ^ f.fractionBits * 2 ^ (d + 2) + 1 ≤ n := by
      rw [hfour] at hle ⊢
      omega
    have hlt' : (2 ^ f.fractionBits * 2 ^ (d + 2) + 1 : ℚ) ≤ n := by exact_mod_cast hlt
    exact mul_le_mul_of_nonneg_right (by linarith) hw.le
  · have hhigh := h.high
    rw [hunit, ← mul_assoc] at hhigh ⊢
    have hlt : n < 2 * 2 ^ f.fractionBits * 2 ^ (d + 2) := by
      exact_mod_cast lt_of_mul_lt_mul_right hhigh hw.le
    have hlt' : (n + 1 : ℚ) ≤ 2 * 2 ^ f.fractionBits * 2 ^ (d + 2) := by exact_mod_cast hlt
    exact mul_lt_mul_of_pos_right (by linarith) hw
  · have hscale (q : ℚ) : q * w / f.unitAt k = q / 2 ^ (d + 2) := by
      rw [hunit]
      field_simp
    have hdist (q : ℚ) : |q / 2 ^ (d + 2) - r| = |q - r * 2 ^ (d + 2)| / 2 ^ (d + 2) := by
      rw [← abs_of_pos hpower, ← abs_div, abs_of_pos hpower]
      congr 1
      field_simp
    have hclose := h.rounds.close
    rw [hscale, hdist, div_le_iff₀ hpower] at hclose
    -- the count is odd and the middle between two units of rounding is even
    have hstrict : |(n : ℚ) - r * 2 ^ (d + 2)| + 1 ≤ 1 / 2 * 2 ^ (d + 2) := by
      have hhalf : (1 / 2 * 2 ^ (d + 2) : ℚ) = (2 * 2 ^ d : ℕ) := by
        push_cast
        ring
      rw [hhalf] at hclose ⊢
      have hcount : |(n : ℤ) - (r * 2 ^ (d + 2) : ℕ)| ≤ (2 * 2 ^ d : ℕ) := by
        exact_mod_cast hclose
      have hcount' : |(n : ℤ) - (r * 2 ^ (d + 2) : ℕ)| < (2 * 2 ^ d : ℕ) := by
        rw [hfour, abs_le] at hcount
        rw [hfour, abs_lt]
        generalize r * (2 * 2 ^ d) = half at hcount ⊢
        omega
      exact_mod_cast hcount'
    have hnear : |z - r * 2 ^ (d + 2)| < 1 / 2 * 2 ^ (d + 2) := by
      have htriangle := abs_sub_le z n (r * 2 ^ (d + 2))
      linarith
    have hless : |z * w / f.unitAt k - r| < 1 / 2 := by
      rwa [hscale, hdist, div_lt_iff₀ hpower]
    exact ⟨hless.le, fun htie => absurd htie hless.ne⟩

theorem fractionBits_add_three_lt_log2 {ma mb sticky : ℕ} (hma : ma ≠ 0) (hmb : mb ≠ 0) :
    f.fractionBits + 3 <
      (2 * (ma <<< (f.fractionBits + 4 + mb.log2) / mb) + sticky).log2 := by
  have hdivisor : mb < 2 ^ (mb.log2 + 1) := Nat.lt_log2_self
  have hquotient : 2 ^ (f.fractionBits + 3) ≤ ma <<< (f.fractionBits + 4 + mb.log2) / mb := by
    rw [Nat.le_div_iff_mul_le (Nat.pos_of_ne_zero hmb), Nat.shiftLeft_eq]
    calc 2 ^ (f.fractionBits + 3) * mb
        ≤ 2 ^ (f.fractionBits + 3) * 2 ^ (mb.log2 + 1) := Nat.mul_le_mul_left _ hdivisor.le
      _ = 1 * 2 ^ (f.fractionBits + 4 + mb.log2) := by rw [← pow_add, one_mul]; congr 1; ring
      _ ≤ ma * 2 ^ (f.fractionBits + 4 + mb.log2) :=
          Nat.mul_le_mul_right _ (Nat.one_le_iff_ne_zero.mpr hma)
  have hpower : 2 ^ (f.fractionBits + 4) = 2 * 2 ^ (f.fractionBits + 3) := by ring
  rw [← Nat.succ_le_iff, Nat.le_log2 (by have := Nat.two_pow_pos (f.fractionBits + 3); omega),
    hpower]
  omega

theorem exists_unitAt_packed {m d : ℕ} (e : ℤ) (h : f.fractionBits + d ≤ m.log2) :
    ∃ d', f.unitAt (f.packedExponent m e) = 2 ^ (d' + d) * 2 ^ e := by
  have hunit := f.leastScale_add_packedExponent m e
  have hle : e + d ≤ f.leastScale + f.packedExponent m e := by
    rw [hunit]
    exact le_max_of_le_left (by omega)
  obtain ⟨d', hd'⟩ := Int.le.dest hle
  refine ⟨d', ?_⟩
  rw [unitAt, ← hd', zpow_add₀ two_ne_zero, zpow_add₀ two_ne_zero, zpow_natCast, zpow_natCast,
    pow_add]
  ring

theorem abs_sub_sticky_lt {n mb : ℕ} (hmb : mb ≠ 0) (hrest : n % mb ≠ 0) :
    |(2 * n / mb : ℚ) - (2 * (n / mb) + 1 : ℕ)| < 1 := by
  have hpos : 0 < mb := Nat.pos_of_ne_zero hmb
  have hmb' : (0 : ℚ) < mb := by exact_mod_cast hpos
  have hdivmod : (n : ℚ) = mb * (n / mb : ℕ) + (n % mb : ℕ) := by
    exact_mod_cast (Nat.div_add_mod n mb).symm
  have hless : ((n % mb : ℕ) : ℚ) < mb := by exact_mod_cast Nat.mod_lt n hpos
  have hpositive : (0 : ℚ) < (n % mb : ℕ) := by exact_mod_cast Nat.pos_of_ne_zero hrest
  have hrest' : (2 * n / mb : ℚ) - (2 * (n / mb) + 1 : ℕ) = (2 * (n % mb : ℕ) - mb) / mb := by
    rw [eq_div_iff hmb'.ne', sub_mul, div_mul_cancel₀ _ hmb'.ne', Nat.cast_add, Nat.cast_mul]
    push_cast
    linarith
  rw [hrest', abs_lt]
  constructor
  · rw [lt_div_iff₀ hmb']
    linarith
  · rw [div_lt_iff₀ hmb']
    linarith

theorem divFinite_rounds (hf : f.Proper) (negative : Bool) (ma mb : ℕ) (ea eb : ℤ) (hmb : mb ≠ 0) :
    f.Rounds (oriented negative (ma * 2 ^ ea / (mb * 2 ^ eb)))
      (f.divFinite negative ma ea mb eb) := by
  have hmb' : (mb : ℚ) ≠ 0 := by exact_mod_cast hmb
  have hexact (shift : ℕ) : (ma * 2 ^ ea / (mb * 2 ^ eb) : ℚ) =
      2 * (ma <<< shift : ℕ) / mb * 2 ^ (ea - eb - shift - 1) := by
    rw [Nat.shiftLeft_eq, sub_sub, sub_sub, zpow_sub₀ two_ne_zero, zpow_add₀ two_ne_zero,
      zpow_add₀ two_ne_zero, zpow_natCast]
    push_cast
    field_simp
  unfold divFinite
  rw [hexact (f.fractionBits + 4 + mb.log2)]
  dsimp only
  split_ifs with hrest
  · -- nothing is cut off
    have hwhole : ((ma <<< (f.fractionBits + 4 + mb.log2) / mb : ℕ) : ℚ) * mb =
        (ma <<< (f.fractionBits + 4 + mb.log2) : ℕ) := by
      exact_mod_cast Nat.div_mul_cancel (Nat.dvd_of_mod_eq_zero hrest)
    have hquotient : (2 * (ma <<< (f.fractionBits + 4 + mb.log2) : ℕ) / mb : ℚ) =
        (2 * (ma <<< (f.fractionBits + 4 + mb.log2) / mb) + 0 : ℕ) := by
      rw [div_eq_iff hmb', ← hwhole, Nat.cast_add, Nat.cast_mul, Nat.cast_two, Nat.cast_zero,
        add_zero, mul_assoc]
    rw [hquotient]
    exact pack_rounds hf _ _ _
  · have hma : ma ≠ 0 := by
      rintro rfl
      rw [Nat.zero_shiftLeft, Nat.zero_mod] at hrest
      exact hrest rfl
    have hlog : f.fractionBits + 2 ≤
        (2 * (ma <<< (f.fractionBits + 4 + mb.log2) / mb) + 1).log2 :=
      Nat.le_of_succ_le (Nat.le_of_lt (fractionBits_add_three_lt_log2 hma hmb))
    obtain ⟨d, hunit⟩ := exists_unitAt_packed
      (ea - eb - (f.fractionBits + 4 + mb.log2 : ℕ) - 1) hlog
    have hcounted := (packed_counted (Nat.succ_ne_zero _)).of_sticky (by positivity) hunit
      (by omega) (abs_sub_sticky_lt hmb hrest)
    rw [pack_eq _ (Nat.succ_ne_zero _)]
    exact hcounted.rounds_word hf negative

theorem oriented_div (na nb : Bool) (x y : ℚ) :
    oriented na x / oriented nb y = oriented (na != nb) (x / y) := by
  cases na <;> cases nb
  · rfl
  · exact div_neg x
  · exact neg_div y x
  · exact neg_div_neg_eq x y

theorem div_rounds (hf : f.Proper) (ha : (f.unpack a).value? = some x)
    (hb : (f.unpack b).value? = some y) (hy : y ≠ 0) : f.Rounds (x / y) (f.div a b) := by
  rw [div, binary_of_values _ ha hb]
  obtain ⟨na, ma, ea, hda, rfl⟩ := eq_finite ha
  obtain ⟨nb, mb, eb, hdb, rfl⟩ := eq_finite hb
  have hmb : mb ≠ 0 := by
    rintro rfl
    rw [Nat.cast_zero, zero_mul, oriented_zero] at hy
    exact hy rfl
  rw [hda, hdb, oriented_div, divData, if_neg hmb]
  exact divFinite_rounds hf _ ma mb ea eb hmb

/-!
# Conversions
-/

theorem ofInt_rounds (hf : f.Proper) (n : ℤ) : f.Rounds n (f.ofInt n) := by
  have hpack := pack_rounds hf (n < 0) n.natAbs 0
  rwa [zpow_zero, oriented_natAbs, mul_one] at hpack

theorem convert_rounds {target : Format} (hf : target.Proper)
    (ha : (f.unpack a).value? = some x) : target.Rounds x (f.convert target a) := by
  obtain ⟨na, ma, ea, hda, rfl⟩ := eq_finite ha
  rw [convert, hda]
  exact pack_rounds hf na ma ea

def truncate (x : ℚ) : ℤ :=
  if x < 0 then ⌈x⌉ else ⌊x⌋

theorem truncate_oriented (negative : Bool) {x : ℚ} (hx : 0 ≤ x) :
    truncate (oriented negative x) = signed negative ⌊x⌋₊ := by
  have hfloor : (⌊x⌋₊ : ℤ) = ⌊x⌋ := Int.natCast_floor_eq_floor hx
  cases negative with
  | false => exact (if_neg (not_lt.mpr hx)).trans hfloor.symm
  | true =>
      show (if -x < 0 then ⌈-x⌉ else ⌊-x⌋) = -(⌊x⌋₊ : ℤ)
      rw [hfloor, Int.ceil_neg]
      split_ifs with hneg
      · rfl
      · have hzero : x = 0 := le_antisymm (by linarith) hx
        rw [hzero, neg_zero, Int.floor_zero, neg_zero]

theorem shift_eq_floor (m : ℕ) (e : ℤ) :
    (if 0 ≤ e then m <<< e.toNat else m >>> (-e).toNat) = ⌊(m * 2 ^ e : ℚ)⌋₊ := by
  split_ifs with he
  · obtain ⟨d, rfl⟩ := Int.eq_ofNat_of_zero_le he
    have hwhole : (m * 2 ^ (d : ℤ) : ℚ) = (m * 2 ^ d : ℕ) := by
      rw [zpow_natCast]
      push_cast
      rfl
    rw [hwhole, Nat.floor_natCast, Int.toNat_natCast, Nat.shiftLeft_eq]
  · obtain ⟨d, rfl⟩ := Int.exists_eq_neg_ofNat (not_le.mp he).le
    have hquotient : (m * 2 ^ (-(d : ℤ)) : ℚ) = m / (2 ^ d : ℕ) := by
      rw [zpow_neg, zpow_natCast, ← div_eq_mul_inv]
      push_cast
      rfl
    rw [hquotient, Nat.floor_div_eq_div, neg_neg, Int.toNat_natCast, Nat.shiftRight_eq_div_pow]

/-- A conversion to an integer cuts off the fraction and keeps within the bounds. -/
theorem toInt_eq (low high : ℤ) (ha : (f.unpack a).value? = some x) :
    f.toInt low high a = max low (min high (truncate x)) := by
  obtain ⟨na, ma, ea, hda, rfl⟩ := eq_finite ha
  have hnonneg : (0 : ℚ) ≤ ma * 2 ^ ea := by positivity
  simp only [toInt, hda, clamp, shift_eq_floor, truncate_oriented na hnonneg]

/-!
# Remainders
-/

/-- The remainder of natural numbers, with the signs of a division that cuts off its fraction. -/
theorem sub_mul_truncate_div (na nb : Bool) (m : ℕ) {n : ℕ} (hn : n ≠ 0) {w : ℚ} (hw : 0 < w) :
    oriented na (m * w) - oriented nb (n * w) *
        truncate (oriented na (m * w) / oriented nb (n * w)) =
      oriented na ((m % n : ℕ) * w) := by
  have hn' : (n : ℚ) ≠ 0 := by exact_mod_cast hn
  have hquotient : (m * w / (n * w) : ℚ) = m / n := mul_div_mul_right _ _ hw.ne'
  have hnonneg : (0 : ℚ) ≤ m / n := by positivity
  have hsign : (nb != (na != nb)) = na := by cases na <;> cases nb <;> rfl
  have hdivmod : (m : ℚ) = n * (m / n : ℕ) + (m % n : ℕ) := by
    exact_mod_cast (Nat.div_add_mod m n).symm
  have hscaled : (m * w : ℚ) = (n * (m / n : ℕ) + (m % n : ℕ)) * w := congrArg (· * w) hdivmod
  rw [oriented_div, hquotient, truncate_oriented _ hnonneg, Nat.floor_div_eq_div, cast_signed,
    oriented_mul, hsign, oriented_sub]
  congr 1
  rw [hscaled]
  ring

theorem rem_rounds (hf : f.Proper) (ha : (f.unpack a).value? = some x)
    (hb : (f.unpack b).value? = some y) (hy : y ≠ 0) :
    f.Rounds (x - y * truncate (x / y)) (f.rem a b) := by
  rw [rem, binary_of_values _ ha hb]
  obtain ⟨na, ma, ea, hda, rfl⟩ := eq_finite ha
  obtain ⟨nb, mb, eb, hdb, rfl⟩ := eq_finite hb
  have hmb : mb ≠ 0 := by
    rintro rfl
    rw [Nat.cast_zero, zero_mul, oriented_zero] at hy
    exact hy rfl
  have hshifted : mb <<< (eb - min ea eb).toNat ≠ 0 := by
    rw [Nat.shiftLeft_eq]
    exact Nat.mul_ne_zero hmb (Nat.two_pow_pos _).ne'
  have hunit : (0 : ℚ) < 2 ^ min ea eb := by positivity
  rw [hda, hdb, remData, if_neg hmb, ← signed_shift na ma (min_le_left ea eb),
    ← signed_shift nb mb (min_le_right ea eb), cast_signed, cast_signed, oriented_mul_right,
    oriented_mul_right, sub_mul_truncate_div na nb _ hshifted hunit]
  exact pack_rounds hf _ _ _

/-!
# Comparisons
-/

theorem compareFinite_eq (na nb : Bool) (ma mb : ℕ) (ea eb : ℤ) :
    compareFinite na ma ea nb mb eb =
      compare (oriented na (ma * 2 ^ ea)) (oriented nb (mb * 2 ^ eb)) := by
  unfold compareFinite
  rw [← signed_shift na ma (min_le_left ea eb), ← signed_shift nb mb (min_le_right ea eb)]
  dsimp only
  generalize signed na (ma <<< (ea - min ea eb).toNat) = p
  generalize signed nb (mb <<< (eb - min ea eb).toNat) = q
  have hunit : (0 : ℚ) < 2 ^ min ea eb := by positivity
  rcases lt_trichotomy p q with hlt | rfl | hgt
  · have hlt' : (p * 2 ^ min ea eb : ℚ) < q * 2 ^ min ea eb :=
      mul_lt_mul_of_pos_right (by exact_mod_cast hlt) hunit
    rw [compare_lt_iff_lt.mpr hlt, compare_lt_iff_lt.mpr hlt']
  · rw [compare_eq_iff_eq.mpr rfl, compare_eq_iff_eq.mpr rfl]
  · have hgt' : (q * 2 ^ min ea eb : ℚ) < p * 2 ^ min ea eb :=
      mul_lt_mul_of_pos_right (by exact_mod_cast hgt) hunit
    rw [compare_gt_iff_gt.mpr hgt, compare_gt_iff_gt.mpr hgt']

/-- Words that stand for numbers are compared as these. -/
theorem compare?_eq (ha : (f.unpack a).value? = some x) (hb : (f.unpack b).value? = some y) :
    f.compare? a b = some (compare x y) := by
  obtain ⟨na, ma, ea, hda, rfl⟩ := eq_finite ha
  obtain ⟨nb, mb, eb, hdb, rfl⟩ := eq_finite hb
  rw [compare?, hda, hdb]
  exact congrArg some (compareFinite_eq na nb ma mb ea eb)

theorem compare?_eq_none_iff :
    f.compare? a b = none ↔ f.isNaN a = true ∨ f.isNaN b = true := by
  rw [← unpack_eq_notANumber_iff, ← unpack_eq_notANumber_iff]
  unfold compare?
  cases f.unpack a <;> cases f.unpack b <;> simp

end Format
end FloatingPoint
end Bytecode
