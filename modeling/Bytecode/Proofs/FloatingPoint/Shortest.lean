import Bytecode.Proofs.FloatingPoint.Digits
import Bytecode.Proofs.FloatingPoint.Rounding
import Mathlib.Algebra.Order.Floor.Semifield
import Mathlib.Data.Rat.Floor

/-!
# Shortest digits

The digits of a finite number name it: their decimal rounds to its word.  No decimal that rounds to
the word has fewer digits, and none with as many is nearer to the number.  The least word with a
leading bit is an exception, for its interval is taken to be as narrow below as that of any other
power of two.
-/

namespace Bytecode
namespace FloatingPoint
namespace Format

variable {f : Format} {m word : ℕ} {e : ℤ} {negative : Bool} {y : ℚ}

/-!
# Intervals of words
-/

/-- How far below a significand the interval reaches, in its unit. -/
def reach (f : Format) (m : ℕ) : ℚ :=
  if m = 2 ^ f.fractionBits then 1 / 4 else 1 / 2

theorem reach_bounds (f : Format) (m : ℕ) : 1 / 4 ≤ f.reach m ∧ f.reach m ≤ 1 / 2 := by
  unfold reach
  split <;> constructor <;> norm_num

theorem interval_fields (f : Format) (m : ℕ) (e : ℤ) :
    ∃ down : ℕ, 0 < down ∧ (f.interval m e).unit = 4 * down ∧
      ((f.interval m e).value : ℚ) = 4 * down * (m * 2 ^ e) ∧
      ((f.interval m e).below : ℚ) = 4 * down * (f.reach m * 2 ^ e) ∧
      ((f.interval m e).above : ℚ) = 4 * down * (1 / 2 * 2 ^ e) := by
  have hbelow (up : ℕ) : ((if m = twoTo f.fractionBits then 1 else 2 : ℕ) * up : ℚ) =
      4 * (f.reach m * up) := by
    unfold reach
    rw [twoTo_eq]
    split
    · push_cast
      ring
    · push_cast
      ring
  unfold interval
  dsimp only
  by_cases he : 0 ≤ e
  · obtain ⟨p, rfl⟩ := Int.eq_ofNat_of_zero_le he
    rw [if_pos he, if_pos he, Int.toNat_natCast, twoTo_eq p, zpow_natCast]
    refine ⟨1, one_pos, rfl, ?_, ?_, ?_⟩
    · push_cast
      ring
    · rw [Nat.cast_mul, hbelow]
      push_cast
      ring
    · push_cast
      ring
  · obtain ⟨p, hp⟩ := Int.eq_ofNat_of_zero_le (Int.neg_nonneg.mpr (not_le.mp he).le)
    obtain rfl : e = -p := by omega
    rw [if_neg he, if_neg he, neg_neg, Int.toNat_natCast, twoTo_eq p, zpow_neg, zpow_natCast]
    refine ⟨2 ^ p, Nat.two_pow_pos p, rfl, ?_, ?_, ?_⟩
    · push_cast
      field_simp
    · rw [Nat.cast_mul, hbelow]
      push_cast
      field_simp
    · push_cast
      field_simp
      norm_num

theorem interval_proper (f : Format) (m : ℕ) (e : ℤ) : (f.interval m e).Proper := by
  obtain ⟨down, hdown, hunit, -, hbelow, habove⟩ := f.interval_fields m e
  have hreach := (f.reach_bounds m).1
  have hpos : (0 : ℚ) < down := by exact_mod_cast hdown
  refine ⟨?_, ?_, by omega⟩
  · rw [← Nat.cast_pos (α := ℚ), hbelow]
    positivity
  · rw [← Nat.cast_pos (α := ℚ), habove]
    positivity

theorem interval_center (f : Format) (m : ℕ) (e : ℤ) : (f.interval m e).center = m * 2 ^ e := by
  obtain ⟨down, hdown, hunit, hvalue, -, -⟩ := f.interval_fields m e
  have hpos : (0 : ℚ) < down := by exact_mod_cast hdown
  rw [Interval.center, hunit, hvalue]
  push_cast
  field_simp

/-- The interval of a significand in its unit.  The ends belong to it when the significand is even,
and when it has no leading bit. -/
theorem interval_holds_iff : (f.interval m e).Holds y ↔
    if m < 2 ^ f.fractionBits ∨ m % 2 = 0 then
      m - f.reach m ≤ y / 2 ^ e ∧ y / 2 ^ e ≤ m + 1 / 2
    else m - f.reach m < y / 2 ^ e ∧ y / 2 ^ e < m + 1 / 2 := by
  obtain ⟨down, hdown, hunit, hvalue, hbelow, habove⟩ := f.interval_fields m e
  have hclosed : (f.interval m e).closed = decide (m < 2 ^ f.fractionBits ∨ m % 2 = 0) := by
    unfold interval
    dsimp only
    rw [Bool.decide_or, ← decide_not, twoTo_eq]
    simp only [not_le]
  have hscale : (0 : ℚ) < 4 * down := by exact_mod_cast (show 0 < 4 * down by omega)
  have hpower : (0 : ℚ) < 2 ^ e := by positivity
  unfold Interval.Holds
  rw [hclosed, hunit, hvalue, hbelow, habove]
  push_cast
  rw [mul_comm y, ← mul_add, ← mul_add, mul_le_mul_iff_right₀ hscale, mul_le_mul_iff_right₀ hscale,
    mul_lt_mul_iff_right₀ hscale, mul_lt_mul_iff_right₀ hscale, le_div_iff₀ hpower,
    lt_div_iff₀ hpower, div_le_iff₀ hpower, div_lt_iff₀ hpower, sub_mul, sub_le_iff_le_add,
    sub_lt_iff_lt_add, add_mul]
  simp only [decide_eq_true_eq]

theorem pos_of_holds (hm : m ≠ 0) (h : (f.interval m e).Holds y) : 0 < y := by
  have hone : (1 : ℚ) ≤ m := by exact_mod_cast Nat.one_le_iff_ne_zero.mpr hm
  have hreach := (f.reach_bounds m).2
  have hpower : (0 : ℚ) < 2 ^ e := by positivity
  have hlow : m - f.reach m ≤ y / 2 ^ e := by
    rw [interval_holds_iff] at h
    split_ifs at h
    · exact h.1
    · exact h.1.le
  have hpos : 0 < y / 2 ^ e := by linarith
  rwa [lt_div_iff₀ hpower, zero_mul] at hpos

/-!
# Rounding back
-/

/-- The widths of the fields are small enough for the constants of the search, and the least unit is
small enough for the digits of the numbers without a leading bit. -/
structure Modest (f : Format) : Prop where
  proper : f.Proper
  fraction : f.fractionBits ≤ 52
  least : -4096 ≤ f.leastScale
  deep : f.leastScale ≤ -64
  greatest : f.leastScale + f.topExponent + f.fractionBits ≤ 4096

theorem single_modest : single.Modest :=
  ⟨single_proper, by decide, by decide, by decide, by decide⟩

theorem double_modest : double.Modest :=
  ⟨double_proper, by decide, by decide, by decide, by decide⟩

/-- No decimal whose digits end before the least unit is half way between two counts of it. -/
theorem ne_half {n : ℕ} {position : ℤ} (hdeep : f.leastScale ≤ 0)
    (hposition : f.leastScale ≤ position) (m : ℕ) :
    |n * 10 ^ position / 2 ^ f.leastScale - (m : ℚ)| ≠ 1 / 2 := by
  obtain ⟨s, hs⟩ := Int.eq_ofNat_of_zero_le (Int.neg_nonneg.mpr hdeep)
  obtain ⟨t, rfl⟩ := Int.le.dest hposition
  obtain hleast : f.leastScale = -s := by omega
  intro htie
  have hcount : (n * 10 ^ (f.leastScale + t) / 2 ^ f.leastScale : ℚ) = n * 10 ^ t / 5 ^ s := by
    have hten : (10 : ℚ) ^ s = 2 ^ s * 5 ^ s := by rw [← mul_pow]; norm_num
    rw [zpow_add₀ (by norm_num), hleast, zpow_neg, zpow_neg, zpow_natCast, zpow_natCast,
      zpow_natCast, hten]
    field_simp
  rw [hcount] at htie
  have hfive : (0 : ℚ) < 5 ^ s := by positivity
  -- an even number would be the product of odd ones
  obtain ⟨odd, hodd, heq⟩ : ∃ odd : ℤ, odd % 2 = 1 ∧ 2 * (n * 10 ^ t : ℕ) = (5 : ℤ) ^ s * odd := by
    rcases (abs_eq (by norm_num)).mp htie with hup | hdown
    · refine ⟨2 * m + 1, by omega, ?_⟩
      have : (2 * (n * 10 ^ t : ℕ) : ℚ) = 5 ^ s * (2 * m + 1) := by
        rw [sub_eq_iff_eq_add, div_eq_iff hfive.ne'] at hup
        push_cast
        rw [hup]
        ring
      exact_mod_cast this
    · refine ⟨2 * m - 1, by omega, ?_⟩
      have : (2 * (n * 10 ^ t : ℕ) : ℚ) = 5 ^ s * (2 * m - 1) := by
        rw [sub_eq_iff_eq_add, div_eq_iff hfive.ne'] at hdown
        push_cast
        rw [hdown]
        ring
      exact_mod_cast this
  have hproduct : Odd ((5 : ℤ) ^ s * odd) := (Odd.pow (by decide)).mul (Int.odd_iff.mpr hodd)
  rw [← heq, Int.odd_iff] at hproduct
  omega

theorem roundsTo_of_holds (hholds : (f.interval m e).Holds y)
    (htie : m < 2 ^ f.fractionBits → |y / 2 ^ e - m| ≠ 1 / 2) :
    m - f.reach m ≤ y / 2 ^ e ∧ RoundsTo (y / 2 ^ e) m := by
  have hreach := (f.reach_bounds m).2
  rw [interval_holds_iff] at hholds
  split_ifs at hholds with hclosed
  · obtain ⟨hlow, hhigh⟩ := hholds
    exact ⟨hlow, abs_le.mpr ⟨by linarith, by linarith⟩,
      fun heq => hclosed.resolve_left fun hsmall => htie hsmall heq⟩
  · obtain ⟨hlow, hhigh⟩ := hholds
    have hless : |y / 2 ^ e - m| < 1 / 2 := abs_lt.mpr ⟨by linarith, by linarith⟩
    exact ⟨hlow.le, hless.le, fun heq => absurd heq hless.ne⟩

/-- Just below the first word of an exponent, the unit is that of the exponent before. -/
theorem counted_below {k : ℕ} (hlow : 2 ^ f.fractionBits - 1 / 4 ≤ y / f.unitAt (k + 1))
    (hhigh : y / f.unitAt (k + 1) < 2 ^ f.fractionBits) :
    f.Counted y k (2 * 2 ^ f.fractionBits) := by
  have hpos := f.unitAt_pos k
  have hpower : (1 : ℚ) ≤ 2 ^ f.fractionBits := one_le_pow₀ one_le_two
  obtain ⟨z, rfl⟩ : ∃ z, y = 2 * z * f.unitAt k := ⟨y / f.unitAt k / 2, by field_simp⟩
  have hhalf : 2 * z * f.unitAt k / f.unitAt (k + 1) = z := by
    rw [unitAt_add]
    field_simp
  rw [hhalf] at hlow hhigh
  refine ⟨mul_nonneg (by linarith) hpos.le, .inr (mul_le_mul_of_nonneg_right (by linarith) hpos.le),
    mul_lt_mul_of_pos_right (by linarith) hpos, ?_, by omega⟩
  rw [mul_div_cancel_right₀ _ hpos.ne']
  push_cast
  exact abs_le.mpr ⟨by linarith, by linarith⟩

theorem counted_of_holds {k : ℕ} (he : e = f.leastScale + k) (hlt : m < 2 * 2 ^ f.fractionBits)
    (hnormal : k = 0 ∨ 2 ^ f.fractionBits ≤ m) (hm : m ≠ 0) (hholds : (f.interval m e).Holds y)
    (htie : m < 2 ^ f.fractionBits → |y / 2 ^ e - m| ≠ 1 / 2) :
    ∃ k' r, k' * 2 ^ f.fractionBits + r = k * 2 ^ f.fractionBits + m ∧ f.Counted y k' r := by
  have hpos := f.unitAt_pos k
  have hone : (1 : ℚ) ≤ m := by exact_mod_cast Nat.one_le_iff_ne_zero.mpr hm
  have hlt' : (m : ℚ) + 1 ≤ 2 * 2 ^ f.fractionBits := by exact_mod_cast hlt
  obtain ⟨hreach, hround⟩ := roundsTo_of_holds hholds htie
  have hunit : f.unitAt k = 2 ^ e := by rw [unitAt, he]
  rw [← hunit] at hreach hround
  have hclose := abs_le.mp hround.close
  by_cases hlow : k = 0 ∨ 2 ^ f.fractionBits ≤ y / f.unitAt k
  · refine ⟨k, m, rfl, ?_, ?_, ?_, hround⟩
    · have hz : 0 ≤ y / f.unitAt k := by linarith
      rwa [le_div_iff₀ hpos, zero_mul] at hz
    · exact hlow.imp_right (le_div_iff₀ hpos).mp
    · rw [← div_lt_iff₀ hpos]
      linarith
  · rw [not_or, not_le] at hlow
    obtain ⟨k', rfl⟩ := Nat.exists_eq_succ_of_ne_zero hlow.1
    have hge := hnormal.resolve_left hlow.1
    have hfirst : m = 2 ^ f.fractionBits := by
      have hless : (m : ℚ) < 2 ^ f.fractionBits + 1 := by linarith
      have hless' : m < 2 ^ f.fractionBits + 1 := by exact_mod_cast hless
      omega
    refine ⟨k', 2 * 2 ^ f.fractionBits, ?_, counted_below ?_ hlow.2⟩
    · rw [hfirst, Nat.succ_eq_add_one]
      ring
    · rw [reach, if_pos hfirst, hfirst] at hreach
      exact_mod_cast hreach

/-- A decimal in the interval of a word rounds to it. -/
theorem rounds_of_holds (hf : f.Modest) (h : f.unpack word = .finite negative m e) (hm : m ≠ 0)
    (hword : word < 2 * f.signBit) {n : ℕ} {position : ℤ} (hposition : f.leastScale ≤ position)
    (hholds : (f.interval m e).Holds (n * 10 ^ position)) :
    f.Rounds (oriented negative (n * 10 ^ position)) word := by
  obtain ⟨k, he, -, hlt, hnormal, hmagnitude⟩ := finite_units h
  have hdeep : f.leastScale ≤ 0 := hf.deep.trans (by decide)
  have htie : m < 2 ^ f.fractionBits → |n * 10 ^ position / 2 ^ e - (m : ℚ)| ≠ 1 / 2 := by
    intro hsmall
    obtain rfl : k = 0 := hnormal.resolve_right (not_le.mpr hsmall)
    rw [he, Nat.cast_zero, add_zero]
    exact ne_half hdeep hposition m
  obtain ⟨k', r, hsame, hcounted⟩ := counted_of_holds he hlt hnormal hm hholds htie
  have hrange := magnitude_lt h
  have hrounds := hcounted.rounds_word hf.proper negative
  rwa [hsame, ← hmagnitude, if_neg (not_le.mpr hrange), ← isNegative_of_finite h,
    withSign_magnitude hword, isNegative_of_finite h] at hrounds

/-!
# The digits of a word
-/

/-- The exponent from which the digits are sought. -/
def firstExponent (f : Format) (m : ℕ) (e : ℤ) : ℤ :=
  decimalExponent (f.interval m e).value (f.interval m e).unit 8
    ((e + m.log2) * 1233 / 4096 - 1)

theorem firstExponent_bounds (hf : f.Modest) (h : f.unpack word = .finite negative m e)
    (hm : m ≠ 0) :
    (10 : ℚ) ^ (f.firstExponent m e - 1) ≤ m * 2 ^ e ∧
      (m * 2 ^ e : ℚ) < 10 ^ f.firstExponent m e ∧ f.leastScale ≤ f.firstExponent m e - 20 := by
  obtain ⟨k, he, hk, hlt, -, -⟩ := finite_units h
  have hleast := hf.least
  have hdeep := hf.deep
  have hgreatest := hf.greatest
  have hlog : m.log2 ≤ f.fractionBits := by
    rw [← Nat.lt_succ_iff, Nat.log2_lt hm, Nat.succ_eq_add_one, pow_succ]
    omega
  obtain ⟨hstart, hend⟩ := tenTo_log2 (e := e) hm (by omega) (by omega)
  have hunit : (0 : ℚ) < (f.interval m e).unit := by
    exact_mod_cast (f.interval_proper m e).unit
  have hvalue : ((f.interval m e).value : ℚ) = (f.interval m e).unit * (m * 2 ^ e) := by
    rw [← interval_center, Interval.center, mul_div_cancel₀ _ hunit.ne']
  refine ⟨?_, ?_, ?_⟩
  · have hlow' : (f.interval m e).unit * 10 ^ (f.firstExponent m e - 1) ≤
        ((f.interval m e).value : ℚ) := by
      apply decimalExponent_low
      rw [hvalue]
      exact mul_le_mul_of_nonneg_left hstart hunit.le
    rw [hvalue, mul_le_mul_iff_right₀ hunit] at hlow'
    exact hlow'
  · have hhigh' : ((f.interval m e).value : ℚ) <
        (f.interval m e).unit * 10 ^ f.firstExponent m e := by
      apply decimalExponent_high
      rw [hvalue]
      exact mul_lt_mul_of_pos_left hend hunit
    rw [hvalue, mul_lt_mul_iff_right₀ hunit] at hhigh'
    exact hhigh'
  · have hguess := le_decimalExponent (f.interval m e).value (f.interval m e).unit 8
      ((e + m.log2) * 1233 / 4096 - 1)
    have hfirst : f.firstExponent m e = decimalExponent (f.interval m e).value
      (f.interval m e).unit 8 ((e + m.log2) * 1233 / 4096 - 1) := rfl
    omega

theorem exists_holds (hf : f.Modest) (h : f.unpack word = .finite negative m e) (hm : m ≠ 0) :
    ∃ n : ℕ, (f.interval m e).Holds (n * 10 ^ (f.firstExponent m e - 20)) := by
  obtain ⟨hlow, -, -⟩ := firstExponent_bounds hf h hm
  obtain ⟨k, he, hk, hlt, -, -⟩ := finite_units h
  have hpower : (0 : ℚ) < 2 ^ e := by positivity
  have hstep : (0 : ℚ) < 10 ^ (f.firstExponent m e - 20) := by positivity
  have hfine : (10 : ℚ) ^ (f.firstExponent m e - 20) < 1 / 4 * 2 ^ e := by
    have hbits : (m : ℚ) < 2 ^ 53 := by
      have hfraction : 2 * 2 ^ f.fractionBits ≤ 2 * 2 ^ 52 :=
        Nat.mul_le_mul_left 2 (Nat.pow_le_pow_right two_pos hf.fraction)
      exact_mod_cast hlt.trans_le hfraction
    have hsplit : (10 : ℚ) ^ (f.firstExponent m e - 1) =
        10 ^ 19 * 10 ^ (f.firstExponent m e - 20) := by
      rw [← tenTo_mul 19, sub_sub]
      rfl
    rw [hsplit] at hlow
    have hless := hlow.trans_lt (mul_lt_mul_of_pos_right hbits hpower)
    norm_num at hless ⊢
    linarith
  have hvalue : (0 : ℚ) ≤ m * 2 ^ e / 10 ^ (f.firstExponent m e - 20) := by positivity
  refine ⟨⌊m * 2 ^ e / (10 : ℚ) ^ (f.firstExponent m e - 20)⌋₊, ?_⟩
  have hfloor := Nat.floor_le hvalue
  have hfloor' := Nat.lt_floor_add_one (m * 2 ^ e / (10 : ℚ) ^ (f.firstExponent m e - 20))
  generalize ⌊m * 2 ^ e / (10 : ℚ) ^ (f.firstExponent m e - 20)⌋₊ = n at hfloor hfloor' ⊢
  rw [le_div_iff₀ hstep] at hfloor
  rw [div_lt_iff₀ hstep, add_mul, one_mul] at hfloor'
  have hreach := (f.reach_bounds m).1
  have hbelow : m - f.reach m < n * 10 ^ (f.firstExponent m e - 20) / 2 ^ e := by
    rw [lt_div_iff₀ hpower, sub_mul]
    have hmore := mul_le_mul_of_nonneg_right hreach hpower.le
    linarith
  have habove : n * 10 ^ (f.firstExponent m e - 20) / 2 ^ e < (m : ℚ) + 1 / 2 := by
    rw [div_lt_iff₀ hpower, add_mul]
    linarith
  rw [interval_holds_iff]
  split
  · exact ⟨hbelow.le, habove.le⟩
  · exact ⟨hbelow, habove⟩

theorem shortest_found (hf : f.Modest) (h : f.unpack word = .finite negative m e) (hm : m ≠ 0) :
    ∃ c n : ℕ, 1 ≤ c ∧ c ≤ 20 ∧
      f.shortest m e = ⟨trimZeros (Nat.toDigits 10 n),
        (Nat.toDigits 10 n).length + (f.firstExponent m e - c)⟩ ∧
      (f.interval m e).Closest n (f.firstExponent m e - c) ∧
        ∀ c', 1 ≤ c' → c' < c →
          ∀ j : ℕ, ¬ (f.interval m e).Holds (j * 10 ^ (f.firstExponent m e - (c' : ℤ))) := by
  have hi := f.interval_proper m e
  obtain ⟨n, hn⟩ := exists_holds hf h hm
  obtain ⟨d, hd⟩ : ∃ d, shortestFrom (f.interval m e) (f.firstExponent m e) 20 1 = some d :=
    shortestFrom_isSome (c := 20) hi (by decide) (by decide) (n := n) (by exact_mod_cast hn)
  obtain ⟨c, n, hle, hlt, rfl, hclosest, hcoarser⟩ := shortestFrom_eq_some hi hd
  refine ⟨c, n, hle, by omega, ?_, hclosest, hcoarser⟩
  have hd' := hd
  unfold firstExponent at hd'
  unfold shortest
  dsimp only
  rw [hd']
  rfl

theorem shortest_value (hf : f.Modest) (h : f.unpack word = .finite negative m e) (hm : m ≠ 0) :
    ∃ (n : ℕ) (position : ℤ), (f.shortest m e).value = n * 10 ^ position ∧
      f.leastScale ≤ position ∧ (f.interval m e).Holds (n * 10 ^ position) := by
  obtain ⟨c, n, -, hc, hfound, hclosest, -⟩ := shortest_found hf h hm
  refine ⟨n, f.firstExponent m e - c, ?_, ?_, hclosest.holds⟩
  · rw [hfound, Decimal.value_trimZeros]
    exact Decimal.value_ofCount n _
  · obtain ⟨-, -, hdeep⟩ := firstExponent_bounds hf h hm
    omega

theorem shortest_digits (hf : f.Modest) (h : f.unpack word = .finite negative m e) (hm : m ≠ 0) :
    (f.shortest m e).digits ≠ [] ∧ ∀ c ∈ (f.shortest m e).digits, c.isDigit = true := by
  constructor
  · intro hnil
    obtain ⟨n, position, hvalue, -, hholds⟩ := shortest_value hf h hm
    have hpos := pos_of_holds hm hholds
    rw [← hvalue, Decimal.value, hnil, Nat.ofDigitChars_nil, Nat.cast_zero, zero_mul] at hpos
    exact absurd hpos (lt_irrefl 0)
  · obtain ⟨c, n, -, -, hfound, -⟩ := shortest_found hf h hm
    obtain ⟨count, hdigits⟩ := trimZeros_append (Nat.toDigits 10 n)
    intro c hc
    rw [hfound] at hc
    apply Nat.isDigit_of_mem_toDigits (b := 10) (n := n) (by decide) (by decide)
    rw [hdigits]
    exact List.mem_append_left _ hc

/-- The digits of a word name it: their decimal rounds to it. -/
theorem shortest_rounds (hf : f.Modest) (h : f.unpack word = .finite negative m e) (hm : m ≠ 0)
    (hword : word < 2 * f.signBit) :
    f.Rounds (oriented negative (f.shortest m e).value) word := by
  obtain ⟨n, position, hvalue, hposition, hholds⟩ := shortest_value hf h hm
  rw [hvalue]
  exact rounds_of_holds hf h hm hword hposition hholds

/-!
# No fewer digits
-/

theorem toDigits_tenTo (c : ℕ) : Nat.toDigits 10 (10 ^ c) = '1' :: List.replicate c '0' := by
  induction c with
  | zero => rfl
  | succ c ih =>
      have hsplit := Nat.toDigits_append_toDigits (b := 10) (n := 10 ^ c) (d := 0) (by decide)
        (Nat.pow_pos (by decide)) (by decide)
      rw [pow_succ', ← Nat.add_zero (10 * 10 ^ c), ← hsplit, ih, List.replicate_succ']
      rfl

theorem length_trimZeros_le {n c : ℕ} (hc : 1 ≤ c) (hn : n ≤ 10 ^ c) :
    (trimZeros (Nat.toDigits 10 n)).length ≤ c := by
  rcases Nat.lt_or_eq_of_le hn with hlt | rfl
  · obtain ⟨count, hdigits⟩ := trimZeros_append (Nat.toDigits 10 n)
    have hlength := congrArg List.length hdigits
    rw [List.length_append] at hlength
    have hless := (Nat.length_toDigits_le_iff (by decide) hc).mpr hlt
    omega
  · have hone : trimZeros ('1' :: List.replicate c '0') = ['1'] := by
      simp [trimZeros]
    rw [toDigits_tenTo, hone]
    exact hc

theorem exists_on_grid (hf : f.Modest) (h : f.unpack word = .finite negative m e) (hm : m ≠ 0)
    {s j : ℕ} (hs : 1 ≤ s) (hj : j < 10 ^ s) {position : ℤ}
    (hholds : (f.interval m e).Holds (j * 10 ^ position)) :
    ∃ j' : ℕ, (f.interval m e).Holds (j' * 10 ^ (f.firstExponent m e - s)) ∧
      |(m * 2 ^ e : ℚ) - j' * 10 ^ (f.firstExponent m e - (s : ℤ))| ≤
        |(m * 2 ^ e : ℚ) - j * 10 ^ position| := by
  obtain ⟨hlow, -, -⟩ := firstExponent_bounds hf h hm
  by_cases hfine : f.firstExponent m e - s ≤ position
  · obtain ⟨t, rfl⟩ := Int.le.dest hfine
    have hsame : ((j * 10 ^ t : ℕ) : ℚ) * 10 ^ (f.firstExponent m e - (s : ℤ)) =
        j * 10 ^ (f.firstExponent m e - s + t) := by
      rw [zpow_add₀ (by norm_num), zpow_natCast]
      push_cast
      ring
    exact ⟨j * 10 ^ t, by rwa [hsame], by rw [hsame]⟩
  · -- the decimal is below the power of ten before the first digit
    obtain ⟨t, rfl⟩ := Nat.exists_eq_add_of_le' hs
    have hfirst : ((10 ^ t : ℕ) : ℚ) * 10 ^ (f.firstExponent m e - ((t + 1 : ℕ) : ℤ)) =
        10 ^ (f.firstExponent m e - 1) := by
      push_cast
      rw [← sub_sub, sub_right_comm]
      exact tenTo_mul t _
    have hbelow : (j * 10 ^ position : ℚ) ≤ 10 ^ (f.firstExponent m e - 1) := by
      calc (j * 10 ^ position : ℚ)
          ≤ 10 ^ (t + 1) * 10 ^ position :=
            mul_le_mul_of_nonneg_right (by exact_mod_cast hj.le) (by positivity)
        _ = 10 ^ (((t + 1 : ℕ) : ℤ) + position) := by
            rw [zpow_add₀ (by norm_num), zpow_natCast]
        _ ≤ 10 ^ (f.firstExponent m e - 1) := zpow_le_zpow_right₀ (by norm_num) (by omega)
    refine ⟨10 ^ t, ?_, ?_⟩
    · rw [hfirst]
      exact hholds.toward (f.interval_proper m e) (.inl ⟨hbelow, by rwa [interval_center]⟩)
    · rw [hfirst, abs_of_nonneg (sub_nonneg.mpr hlow),
        abs_of_nonneg (sub_nonneg.mpr (hbelow.trans hlow))]
      linarith

theorem closest_le (hf : f.Modest) (h : f.unpack word = .finite negative m e) (hm : m ≠ 0)
    {c n : ℕ} (hclosest : (f.interval m e).Closest n (f.firstExponent m e - c)) : n ≤ 10 ^ c := by
  obtain ⟨-, hhigh, -⟩ := firstExponent_bounds hf h hm
  have htop : ((10 ^ c : ℕ) : ℚ) * 10 ^ (f.firstExponent m e - (c : ℤ)) =
      10 ^ f.firstExponent m e := by
    push_cast
    exact tenTo_mul c _
  by_contra hlarge
  have hstep : (0 : ℚ) < 10 ^ (f.firstExponent m e - (c : ℤ)) := by positivity
  have hbeyond : (10 : ℚ) ^ f.firstExponent m e < n * 10 ^ (f.firstExponent m e - (c : ℤ)) := by
    rw [← htop]
    exact mul_lt_mul_of_pos_right (by exact_mod_cast not_le.mp hlarge) hstep
  have hnear := hclosest.nearest (10 ^ c) (by
    rw [htop]
    exact hclosest.holds.toward (f.interval_proper m e)
      (.inr ⟨by rw [interval_center]; exact hhigh.le, hbeyond.le⟩))
  rw [htop, interval_center, abs_of_nonpos (sub_nonpos.mpr (hhigh.trans hbeyond).le),
    abs_of_nonpos (sub_nonpos.mpr hhigh.le)] at hnear
  linarith

/-- No decimal in the interval of a word has fewer digits than those that are found, and none with
as many is nearer to the number. -/
theorem shortest_best (hf : f.Modest) (h : f.unpack word = .finite negative m e) (hm : m ≠ 0)
    {j : ℕ} {position : ℤ} (hholds : (f.interval m e).Holds (j * 10 ^ position)) :
    (f.shortest m e).digits.length ≤ (Nat.toDigits 10 j).length ∧
      ((Nat.toDigits 10 j).length = (f.shortest m e).digits.length →
        |m * 2 ^ e - (f.shortest m e).value| ≤ |(m * 2 ^ e : ℚ) - j * 10 ^ position|) := by
  obtain ⟨c, n, hc, -, hfound, hclosest, hcoarser⟩ := shortest_found hf h hm
  have hlength : (f.shortest m e).digits.length ≤ c := by
    rw [hfound]
    exact length_trimZeros_le hc (closest_le hf h hm hclosest)
  have hpos : 1 ≤ (Nat.toDigits 10 j).length := Nat.length_toDigits_pos
  have hj : j < 10 ^ (Nat.toDigits 10 j).length :=
    (Nat.length_toDigits_le_iff (by decide) hpos).mp le_rfl
  constructor
  · by_contra hfewer
    obtain ⟨j', hj', -⟩ := exists_on_grid hf h hm hpos hj hholds
    exact hcoarser _ hpos (by omega) j' hj'
  · intro heq
    have hj' : j < 10 ^ c :=
      hj.trans_le (Nat.pow_le_pow_right (by decide) (heq.trans_le hlength))
    obtain ⟨j', hin, hnear⟩ := exists_on_grid hf h hm hc hj' hholds
    have hclose := hclosest.nearest j' hin
    have hvalue : (f.shortest m e).value = n * 10 ^ (f.firstExponent m e - (c : ℤ)) := by
      rw [hfound, Decimal.value_trimZeros]
      exact Decimal.value_ofCount n _
    rw [interval_center] at hclose
    rw [hvalue]
    exact hclose.trans hnear

/-!
# What rounds to a word
-/

theorem Rounds.upper (hf : f.Proper) (h : f.unpack word = .finite negative m e)
    (hword : word < 2 * f.signBit) (hy : f.Rounds (oriented negative y) word) :
    y ≤ (m + 1 / 2) * 2 ^ e ∧ (y = (m + 1 / 2) * 2 ^ e → m % 2 = 0) := by
  obtain ⟨k, he, hk, hlt, hnormal, hmagnitude⟩ := finite_units h
  have hunit : f.unitAt k = 2 ^ e := by rw [unitAt, he]
  have hpos := f.unitAt_pos k
  rw [hunit] at hpos
  by_cases hnext : k * 2 ^ f.fractionBits + (m + 1) < f.topExponent * 2 ^ f.fractionBits
  · have hvalue := magnitudeValue_of_units (f := f) (r := m + 1) hlt
      (hnormal.imp_right Nat.le_succ_of_le)
    rw [hunit] at hvalue
    push_cast at hvalue
    have hmore : (m * 2 ^ e : ℚ) < (m + 1) * 2 ^ e := mul_lt_mul_of_pos_right (by linarith) hpos
    have hside := hy.side hf h hword hnext (by rw [hvalue]; exact hmore.ne')
    rw [hvalue] at hside
    have hmiddle := le_middle hmore hside.1 hside.2
    rwa [show (m * 2 ^ e + (m + 1) * 2 ^ e : ℚ) / 2 = (m + 1 / 2) * 2 ^ e by ring] at hmiddle
  · -- the greatest word reaches up to the overflow
    have htop := hf.two_lt_topExponent
    have hrange := magnitude_lt h
    rw [hmagnitude] at hrange
    obtain ⟨d, hd⟩ := Nat.exists_eq_add_of_lt hk
    have hcarry : (d + 1) * 2 ^ f.fractionBits = m + 1 := by
      rw [hd, Nat.add_assoc, Nat.add_mul] at hnext hrange
      omega
    obtain rfl : d = 1 := by
      rcases d with _ | _ | d
      · have hzero := hnormal.resolve_right (by omega)
        omega
      · rfl
      · have hpower : 0 < 2 ^ f.fractionBits := Nat.two_pow_pos _
        rw [Nat.add_mul, Nat.add_mul, Nat.add_mul] at hcarry
        omega
    have hcount : (m : ℚ) + 1 = 2 * 2 ^ f.fractionBits := by exact_mod_cast hcarry.symm
    cases hy with
    | infinite hinfinite => rw [h] at hinfinite; cases hinfinite
    | finite _ hover =>
        have hless : y < (m + 1 / 2) * 2 ^ e := by
          rw [overflow, hd, abs_oriented, Nat.add_assoc, Nat.add_sub_cancel, hunit, ← hcount]
            at hover
          have habs := le_abs_self y
          linarith
        exact ⟨hless.le, fun heq => absurd heq hless.ne⟩

theorem lower_magnitude {k : ℕ} (he : e = f.leastScale + k) (hlt : m < 2 * 2 ^ f.fractionBits)
    (hnormal : k = 0 ∨ 2 ^ f.fractionBits ≤ m) (hm : m ≠ 0)
    (hleast : k * 2 ^ f.fractionBits + m ≠ 2 ^ f.fractionBits) :
    f.magnitudeValue (k * 2 ^ f.fractionBits + m - 1) = (m - 2 * f.reach m) * 2 ^ e := by
  have hunit : f.unitAt k = 2 ^ e := by rw [unitAt, he]
  obtain ⟨r, rfl⟩ := Nat.exists_eq_succ_of_ne_zero hm
  by_cases hfirst : r + 1 = 2 ^ f.fractionBits
  · obtain ⟨k', rfl⟩ : ∃ k', k = k' + 1 := by
      refine Nat.exists_eq_succ_of_ne_zero fun hzero => hleast ?_
      rw [hzero, Nat.zero_mul, Nat.zero_add]
      exact hfirst
    have hbefore : (k' + 1) * 2 ^ f.fractionBits + r.succ - 1 =
        k' * 2 ^ f.fractionBits + (2 * r + 1) := by
      rw [Nat.succ_mul]
      omega
    rw [hbefore, magnitudeValue_of_units (by omega) (.inr (by omega)), ← hunit, unitAt_add, reach,
      if_pos hfirst]
    push_cast
    ring
  · have hbefore : k * 2 ^ f.fractionBits + r.succ - 1 = k * 2 ^ f.fractionBits + r := rfl
    rw [hbefore, magnitudeValue_of_units (by omega) (hnormal.imp_right fun hle => by omega), hunit,
      reach, if_neg hfirst]
    push_cast
    ring

theorem Rounds.lower (hf : f.Proper) (h : f.unpack word = .finite negative m e) (hm : m ≠ 0)
    (hword : word < 2 * f.signBit) (hleast : f.magnitude word ≠ 2 ^ f.fractionBits)
    (hy : f.Rounds (oriented negative y) word) :
    (m - f.reach m) * 2 ^ e ≤ y ∧ (y = (m - f.reach m) * 2 ^ e → m % 2 = 0) := by
  obtain ⟨k, he, hk, hlt, hnormal, hmagnitude⟩ := finite_units h
  have hpower : (0 : ℚ) < 2 ^ e := by positivity
  have hreach := (f.reach_bounds m).1
  have hrange := magnitude_lt h
  rw [hmagnitude] at hrange hleast
  have hbefore := lower_magnitude he hlt hnormal hm hleast
  have hless : ((m - 2 * f.reach m) * 2 ^ e : ℚ) < m * 2 ^ e :=
    mul_lt_mul_of_pos_right (by linarith) hpower
  have hother : k * 2 ^ f.fractionBits + m - 1 < f.topExponent * 2 ^ f.fractionBits := by omega
  have hside := hy.side hf h hword hother (by rw [hbefore]; exact hless.ne)
  rw [hbefore] at hside
  have hmiddle := middle_le hless hside.1 hside.2
  rwa [show (m * 2 ^ e + (m - 2 * f.reach m) * 2 ^ e : ℚ) / 2 = (m - f.reach m) * 2 ^ e by ring]
    at hmiddle

/-- What rounds to a word is in its interval.  The least word with a leading bit is left out: the
interval reaches as far below it as below other first words of an exponent, but the word before it
is farther away than before those. -/
theorem holds_of_rounds (hf : f.Proper) (h : f.unpack word = .finite negative m e) (hm : m ≠ 0)
    (hword : word < 2 * f.signBit) (hleast : f.magnitude word ≠ 2 ^ f.fractionBits)
    (hy : f.Rounds (oriented negative y) word) : (f.interval m e).Holds y := by
  have hpower : (0 : ℚ) < 2 ^ e := by positivity
  obtain ⟨hle, heven⟩ := hy.upper hf h hword
  obtain ⟨hge, heven'⟩ := hy.lower hf h hm hword hleast
  rw [interval_holds_iff]
  split
  · exact ⟨(le_div_iff₀ hpower).mpr hge, (div_le_iff₀ hpower).mpr hle⟩
  next hopen =>
    rw [not_or] at hopen
    exact ⟨(lt_div_iff₀ hpower).mpr (lt_of_le_of_ne hge fun heq => hopen.2 (heven' heq.symm)),
      (div_lt_iff₀ hpower).mpr (lt_of_le_of_ne hle fun heq => hopen.2 (heven heq))⟩

/-- No decimal that rounds to a word has fewer digits than those that are found, and none with as
many is nearer to the number, unless the word is the least one with a leading bit. -/
theorem shortest_of_rounds (hf : f.Modest) (h : f.unpack word = .finite negative m e) (hm : m ≠ 0)
    (hword : word < 2 * f.signBit) (hleast : f.magnitude word ≠ 2 ^ f.fractionBits) {j : ℕ}
    {position : ℤ} (hj : f.Rounds (oriented negative (j * 10 ^ position)) word) :
    (f.shortest m e).digits.length ≤ (Nat.toDigits 10 j).length ∧
      ((Nat.toDigits 10 j).length = (f.shortest m e).digits.length →
        |m * 2 ^ e - (f.shortest m e).value| ≤ |(m * 2 ^ e : ℚ) - j * 10 ^ position|) :=
  shortest_best hf h hm (holds_of_rounds hf.proper h hm hword hleast hj)

end Format
end FloatingPoint
end Bytecode
