import Bytecode.FloatingPoint.Digits
import Bytecode.Proofs.FloatingPoint.Values

/-!
# The search for digits

On grids of decimals that get finer, the search comes to the first one with a multiple in the
interval, and takes the multiple that is nearest to the value.  It starts at the power of ten above
the value.
-/

namespace Bytecode
namespace FloatingPoint

/-!
# Decimals
-/

/-- The number a decimal stands for. -/
def Decimal.value (d : Decimal) : ℚ :=
  Nat.ofDigitChars 10 d.digits 0 * 10 ^ (d.exponent - d.digits.length)

/-- A decimal whose last digit counts a given power of ten. -/
def Decimal.ofCount (n : ℕ) (position : ℤ) : Decimal :=
  ⟨Nat.toDigits 10 n, (Nat.toDigits 10 n).length + position⟩

theorem Decimal.value_ofCount (n : ℕ) (position : ℤ) :
    (Decimal.ofCount n position).value = n * 10 ^ position := by
  rw [value, ofCount, Nat.ofDigitChars_toDigits (by decide) (by decide), add_sub_cancel_left]

theorem Format.trimZeros_append (digits : List Char) :
    ∃ count, digits = trimZeros digits ++ List.replicate count '0' := by
  have hzeros : ∀ c ∈ digits.reverse.takeWhile (· = '0'), c = '0' :=
    fun c hc => of_decide_eq_true (List.all_eq_true.mp List.all_takeWhile c hc)
  refine ⟨(digits.reverse.takeWhile (· = '0')).length, ?_⟩
  rw [← List.reverse_replicate, ← List.eq_replicate_of_mem hzeros, trimZeros,
    ← List.reverse_append, List.takeWhile_append_dropWhile, List.reverse_reverse]

theorem Decimal.value_trimZeros (digits : List Char) (exponent : ℤ) :
    (Decimal.mk (Format.trimZeros digits) exponent).value = (Decimal.mk digits exponent).value := by
  obtain ⟨count, hdigits⟩ := Format.trimZeros_append digits
  have hlength : (exponent - (Format.trimZeros digits).length : ℤ) =
      count + (exponent - digits.length) := by
    have := congrArg List.length hdigits
    rw [List.length_append, List.length_replicate] at this
    omega
  have hcount : Nat.ofDigitChars 10 digits 0 =
      10 ^ count * Nat.ofDigitChars 10 (Format.trimZeros digits) 0 := by
    conv_lhs => rw [hdigits]
    rw [Nat.ofDigitChars_append, Nat.ofDigitChars_replicate_zero]
  simp only [value]
  rw [hlength, hcount, zpow_add₀ (by norm_num), zpow_natCast]
  push_cast
  ring

theorem tenTo_eq (n : ℕ) : tenTo n = 10 ^ n := rfl

theorem tenTo_mul (c : ℕ) (x : ℤ) : (10 : ℚ) ^ c * 10 ^ (x - c) = 10 ^ x := by
  rw [← zpow_natCast, ← zpow_add₀ (by norm_num), add_sub_cancel]

/-!
# Intervals
-/

namespace Interval

variable {i : Interval} {n step : ℕ}

/-- The fields of an interval around a number that is not empty. -/
structure Proper (i : Interval) : Prop where
  below : 0 < i.below
  above : 0 < i.above
  unit : 0 < i.unit

theorem contains_toward (hi : i.Proper) (h : i.contains n step = true) {j : ℕ}
    (hj : n ≤ j ∧ j * step ≤ i.value ∨ j ≤ n ∧ i.value ≤ j * step) :
    i.contains j step = true := by
  have hmul : n ≤ j → n * step ≤ j * step := Nat.mul_le_mul_right step
  have hmul' : j ≤ n → j * step ≤ n * step := Nat.mul_le_mul_right step
  have hbelow := hi.below
  have habove := hi.above
  unfold contains at h ⊢
  dsimp only at h ⊢
  split at h <;> rename_i hclosed <;>
    simp only [hclosed, if_true, Bool.false_eq_true, if_false, Bool.and_eq_true,
      decide_eq_true_eq] at h ⊢ <;>
    omega

/-- How far a multiple of a step is from the value. -/
def distance (i : Interval) (n step : ℕ) : ℕ :=
  (i.value - n * step) + (n * step - i.value)

theorem step_bounds (i : Interval) (hstep : 0 < step) :
    i.value / step * step ≤ i.value ∧ i.value < (i.value / step + 1) * step := by
  refine ⟨Nat.div_mul_le_self _ _, ?_⟩
  rw [Nat.mul_comm]
  exact Nat.lt_mul_div_succ _ hstep

theorem contains_beside (hi : i.Proper) (hstep : 0 < step) (h : i.contains n step = true) :
    n ≤ i.value / step ∧ i.contains (i.value / step) step = true ∨
      i.value / step + 1 ≤ n ∧ i.contains (i.value / step + 1) step = true := by
  obtain ⟨hlow, hhigh⟩ := i.step_bounds hstep
  rcases Nat.lt_or_ge (i.value / step) n with hlt | hle
  · exact .inr ⟨hlt, contains_toward hi h (.inr ⟨hlt, hhigh.le⟩)⟩
  · exact .inl ⟨hle, contains_toward hi h (.inl ⟨hle, hlow⟩)⟩

theorem pick?_eq_none (hi : i.Proper) (hstep : 0 < step) (h : i.pick? step = none) (j : ℕ) :
    i.contains j step = false := by
  rw [Bool.eq_false_iff]
  intro hj
  unfold pick? at h
  dsimp only at h
  split_ifs at h with hboth hlow hhigh
  rcases contains_beside hi hstep hj with ⟨-, hin⟩ | ⟨-, hin⟩
  · exact hlow hin
  · exact hhigh hin

/-- The multiple that is picked is in the interval, and none that is in the interval is nearer. -/
theorem pick?_eq_some (hi : i.Proper) (hstep : 0 < step) (h : i.pick? step = some n) :
    i.contains n step = true ∧
      ∀ j, i.contains j step = true → i.distance n step ≤ i.distance j step := by
  have hbounds := i.step_bounds hstep
  have hbeside (j : ℕ) (hj : i.contains j step = true) := contains_beside hi hstep hj
  have hless (j k : ℕ) (hjk : j ≤ k) : j * step ≤ k * step := Nat.mul_le_mul_right step hjk
  unfold pick? at h
  unfold distance
  dsimp only at h
  generalize i.value / step = low at h hbounds hbeside
  have hnext : (low + 1) * step = low * step + step := Nat.succ_mul low step
  split_ifs at h with hboth hnear hlowIn hhighIn <;> cases h
  · rw [Bool.and_eq_true] at hboth
    refine ⟨hboth.1, fun j hj => ?_⟩
    rcases hbeside j hj with ⟨hle, -⟩ | ⟨hle, -⟩ <;> have hside := hless _ _ hle <;> omega
  · rw [Bool.and_eq_true] at hboth
    refine ⟨hboth.2, fun j hj => ?_⟩
    rcases hbeside j hj with ⟨hle, -⟩ | ⟨hle, -⟩ <;> have hside := hless _ _ hle <;> omega
  · refine ⟨hlowIn, fun j hj => ?_⟩
    rcases hbeside j hj with ⟨hle, -⟩ | ⟨-, hin⟩
    · have hside := hless _ _ hle
      omega
    · rw [hlowIn, hin] at hboth
      exact absurd rfl hboth
  · refine ⟨hhighIn, fun j hj => ?_⟩
    rcases hbeside j hj with ⟨-, hin⟩ | ⟨hle, -⟩
    · exact absurd hin hlowIn
    · have hside := hless _ _ hle
      omega

/-- A number lies in the interval. -/
def Holds (i : Interval) (y : ℚ) : Prop :=
  if i.closed then i.value ≤ y * i.unit + i.below ∧ y * i.unit ≤ i.value + i.above
  else i.value < y * i.unit + i.below ∧ y * i.unit < i.value + i.above

theorem contains_iff_holds {j : Interval} {s y : ℚ} (hs : 0 < s) (hclosed : j.closed = i.closed)
    (hvalue : (j.value : ℚ) = s * i.value) (hbelow : (j.below : ℚ) = s * i.below)
    (habove : (j.above : ℚ) = s * i.above) (hpoint : (n * step : ℚ) = s * (y * i.unit)) :
    j.contains n step = true ↔ i.Holds y := by
  unfold contains Holds
  rw [hclosed]
  dsimp only
  split <;> rw [Bool.and_eq_true, decide_eq_true_eq, decide_eq_true_eq]
  · rw [← Nat.cast_le (α := ℚ), ← Nat.cast_le (α := ℚ)]
    push_cast
    rw [hvalue, hbelow, habove, hpoint, ← mul_add, ← mul_add, mul_le_mul_iff_right₀ hs,
      mul_le_mul_iff_right₀ hs]
  · rw [← Nat.cast_lt (α := ℚ), ← Nat.cast_lt (α := ℚ)]
    push_cast
    rw [hvalue, hbelow, habove, hpoint, ← mul_add, ← mul_add, mul_lt_mul_iff_right₀ hs,
      mul_lt_mul_iff_right₀ hs]

/-- The interval in the unit in which the counts of a power of ten are compared. -/
def refined (i : Interval) (position : ℤ) : Interval :=
  if 0 ≤ position then i
  else
    let p := tenTo (-position).toNat
    { i with value := i.value * p, below := i.below * p, above := i.above * p }

/-- The power of ten in that unit. -/
def stepAt (i : Interval) (position : ℤ) : ℕ :=
  if 0 ≤ position then i.unit * tenTo position.toNat else i.unit

theorem refined_contains_iff (i : Interval) (position : ℤ) (n : ℕ) :
    (i.refined position).contains n (i.stepAt position) = true ↔ i.Holds (n * 10 ^ position) := by
  unfold refined stepAt
  by_cases hpos : 0 ≤ position
  · obtain ⟨p, rfl⟩ := Int.eq_ofNat_of_zero_le hpos
    rw [if_pos hpos, if_pos hpos]
    apply contains_iff_holds one_pos rfl (one_mul _).symm (one_mul _).symm (one_mul _).symm
    rw [Int.toNat_natCast, zpow_natCast, tenTo_eq]
    push_cast
    ring
  · obtain ⟨p, hp⟩ := Int.eq_ofNat_of_zero_le (Int.neg_nonneg.mpr (not_le.mp hpos).le)
    obtain rfl : position = -p := by omega
    rw [if_neg hpos, if_neg hpos]
    have hten : (0 : ℚ) < 10 ^ p := by positivity
    refine contains_iff_holds (i := i) hten rfl ?_ ?_ ?_ ?_
    all_goals
      simp only [neg_neg, Int.toNat_natCast, zpow_neg, zpow_natCast, tenTo_eq]
      push_cast
      field_simp

theorem Proper.refined (hi : i.Proper) (position : ℤ) : (i.refined position).Proper := by
  have hten : 0 < tenTo (-position).toNat := Nat.pow_pos (by decide)
  unfold Interval.refined
  split
  · exact hi
  · exact ⟨Nat.mul_pos hi.below hten, Nat.mul_pos hi.above hten, hi.unit⟩

theorem Proper.stepAt_pos (hi : i.Proper) (position : ℤ) : 0 < i.stepAt position := by
  unfold stepAt
  split
  · exact Nat.mul_pos hi.unit (Nat.pow_pos (by decide))
  · exact hi.unit

/-- The number that the interval is about. -/
def center (i : Interval) : ℚ :=
  i.value / i.unit

/-- What lies on the way from a number in the interval to its center is in it. -/
theorem Holds.toward (hi : i.Proper) {y w : ℚ} (h : i.Holds y)
    (hw : y ≤ w ∧ w ≤ i.center ∨ i.center ≤ w ∧ w ≤ y) : i.Holds w := by
  have hunit : (0 : ℚ) < i.unit := by exact_mod_cast hi.unit
  have hbelow : (0 : ℚ) < i.below := by exact_mod_cast hi.below
  have habove : (0 : ℚ) < i.above := by exact_mod_cast hi.above
  have hscale {a b : ℚ} (hab : a ≤ b) : a * i.unit ≤ b * i.unit :=
    mul_le_mul_of_nonneg_right hab hunit.le
  have hcenter : i.center * i.unit = i.value := div_mul_cancel₀ _ hunit.ne'
  unfold Holds at h ⊢
  rcases hw with ⟨hyw, hwc⟩ | ⟨hcw, hwy⟩
  · have hyw' := hscale hyw
    have hwc' := hscale hwc
    split_ifs at h ⊢
    · exact ⟨by linarith, by linarith⟩
    · exact ⟨by linarith, by linarith⟩
  · have hcw' := hscale hcw
    have hwy' := hscale hwy
    split_ifs at h ⊢
    · exact ⟨by linarith, by linarith⟩
    · exact ⟨by linarith, by linarith⟩

theorem cast_distance (n step : ℕ) :
    (i.distance n step : ℚ) = |(i.value : ℚ) - (n * step : ℕ)| := by
  unfold distance
  rcases le_total i.value (n * step) with hle | hle
  · have hle' : (i.value : ℚ) ≤ (n * step : ℕ) := by exact_mod_cast hle
    rw [Nat.sub_eq_zero_of_le hle, Nat.zero_add, abs_of_nonpos (sub_nonpos.mpr hle'), neg_sub,
      Nat.cast_sub hle]
  · have hle' : ((n * step : ℕ) : ℚ) ≤ i.value := by exact_mod_cast hle
    rw [Nat.sub_eq_zero_of_le hle, Nat.add_zero, abs_of_nonneg (sub_nonneg.mpr hle'),
      Nat.cast_sub hle]

theorem refined_distance_le_iff (hi : i.Proper) (position : ℤ) (n j : ℕ) :
    (i.refined position).distance n (i.stepAt position) ≤
        (i.refined position).distance j (i.stepAt position) ↔
      |i.center - n * 10 ^ position| ≤ |i.center - j * 10 ^ position| := by
  obtain ⟨s, hs, hvalue, hstep⟩ : ∃ s : ℚ, 0 < s ∧ ((i.refined position).value : ℚ) = s * i.center ∧
      (i.stepAt position : ℚ) = s * 10 ^ position := by
    have hunit : (i.unit : ℚ) ≠ 0 := by exact_mod_cast hi.unit.ne'
    have hpos : (0 : ℚ) < i.unit := by exact_mod_cast hi.unit
    unfold Interval.refined stepAt center
    by_cases hposition : 0 ≤ position
    · obtain ⟨p, rfl⟩ := Int.eq_ofNat_of_zero_le hposition
      refine ⟨i.unit, hpos, ?_, ?_⟩
      · rw [if_pos hposition]
        field_simp
      · rw [if_pos hposition, Int.toNat_natCast, tenTo_eq]
        push_cast
        rw [zpow_natCast]
    · obtain ⟨p, hp⟩ := Int.eq_ofNat_of_zero_le (Int.neg_nonneg.mpr (not_le.mp hposition).le)
      obtain rfl : position = -p := by omega
      refine ⟨i.unit * 10 ^ p, by positivity, ?_, ?_⟩
      · rw [if_neg hposition]
        simp only [neg_neg, Int.toNat_natCast, tenTo_eq]
        push_cast
        field_simp
      · rw [if_neg hposition, zpow_neg, zpow_natCast]
        field_simp
  rw [← Nat.cast_le (α := ℚ), cast_distance, cast_distance]
  push_cast
  rw [hvalue, hstep]
  have hscale (k : ℕ) : |s * i.center - k * (s * 10 ^ position)| =
      s * |i.center - k * 10 ^ position| := by
    rw [← abs_of_pos hs, ← abs_mul, abs_of_pos hs]
    congr 1
    ring
  rw [hscale, hscale, mul_le_mul_iff_right₀ hs]

/-- A multiple of a power of ten in the interval, and none of its multiples in the interval is
nearer to the center. -/
structure Closest (i : Interval) (n : ℕ) (position : ℤ) : Prop where
  holds : i.Holds (n * 10 ^ position)
  nearest : ∀ j : ℕ, i.Holds (j * 10 ^ position) →
    |i.center - n * 10 ^ position| ≤ |i.center - j * 10 ^ position|

theorem Proper.closest_of_pick? (hi : i.Proper) {position : ℤ}
    (h : (i.refined position).pick? (i.stepAt position) = some n) : i.Closest n position := by
  obtain ⟨hin, hnear⟩ := pick?_eq_some (hi.refined position) (hi.stepAt_pos position) h
  refine ⟨(i.refined_contains_iff position n).mp hin, fun j hj => ?_⟩
  rw [← refined_distance_le_iff hi]
  exact hnear j ((i.refined_contains_iff position j).mpr hj)

theorem Proper.not_holds_of_pick? (hi : i.Proper) {position : ℤ}
    (h : (i.refined position).pick? (i.stepAt position) = none) (j : ℕ) :
    ¬ i.Holds (j * 10 ^ position) := by
  rw [← refined_contains_iff, Bool.not_eq_true]
  exact pick?_eq_none (hi.refined position) (hi.stepAt_pos position) h j

end Interval

/-!
# The search
-/

namespace Format

variable {i : Interval} {d : Decimal} {exponent : ℤ} {tries count : ℕ}

theorem shortestFrom_succ (i : Interval) (exponent : ℤ) (tries count : ℕ) :
    shortestFrom i exponent (tries + 1) count =
      match (i.refined (exponent - count)).pick? (i.stepAt (exponent - count)) with
      | some n => some (Decimal.ofCount n (exponent - count))
      | none => shortestFrom i exponent tries (count + 1) := rfl

/-- The decimal that is found is the first one on grids that get finer. -/
theorem shortestFrom_eq_some (hi : i.Proper) (h : shortestFrom i exponent tries count = some d) :
    ∃ c n : ℕ, count ≤ c ∧ c < count + tries ∧ d = Decimal.ofCount n (exponent - c) ∧
      i.Closest n (exponent - c) ∧
        ∀ c', count ≤ c' → c' < c → ∀ j : ℕ, ¬ i.Holds (j * 10 ^ (exponent - (c' : ℤ))) := by
  induction tries generalizing count with
  | zero => cases h
  | succ tries ih =>
      rw [shortestFrom_succ] at h
      split at h
      next n hpick =>
        cases h
        exact ⟨count, n, le_rfl, by omega, rfl, hi.closest_of_pick? hpick,
          fun c' hle hlt => absurd hle (not_le.mpr hlt)⟩
      next hpick =>
        obtain ⟨c, n, hle, hlt, hd, hclosest, hcoarser⟩ := ih h
        refine ⟨c, n, by omega, by omega, hd, hclosest, fun c' hle' hlt => ?_⟩
        rcases Nat.eq_or_lt_of_le hle' with rfl | hlt'
        · exact hi.not_holds_of_pick? hpick
        · exact hcoarser c' hlt' hlt

theorem shortestFrom_isSome (hi : i.Proper) {c n : ℕ} (hle : count ≤ c) (hlt : c < count + tries)
    (h : i.Holds (n * 10 ^ (exponent - c))) :
    ∃ d, shortestFrom i exponent tries count = some d := by
  induction tries generalizing count with
  | zero => omega
  | succ tries ih =>
      rw [shortestFrom_succ]
      split
      next => exact ⟨_, rfl⟩
      next hpick =>
        rcases Nat.eq_or_lt_of_le hle with rfl | hlt'
        · exact absurd h (hi.not_holds_of_pick? hpick n)
        · exact ih hlt' (by omega)

/-!
# The exponent to start from
-/

variable {value unit : ℕ}

theorem below_iff (value unit : ℕ) (exponent : ℤ) :
    (if 0 ≤ exponent then value < unit * tenTo exponent.toNat
      else value * tenTo (-exponent).toNat < unit) ↔ (value : ℚ) < unit * 10 ^ exponent := by
  split
  next hexponent =>
    obtain ⟨p, rfl⟩ := Int.eq_ofNat_of_zero_le hexponent
    rw [Int.toNat_natCast, zpow_natCast, tenTo_eq]
    exact_mod_cast Iff.rfl
  next hexponent =>
    obtain ⟨p, hp⟩ := Int.eq_ofNat_of_zero_le (Int.neg_nonneg.mpr (not_le.mp hexponent).le)
    obtain rfl : exponent = -p := by omega
    rw [neg_neg, Int.toNat_natCast, zpow_neg, zpow_natCast, tenTo_eq, ← div_eq_mul_inv,
      lt_div_iff₀ (by positivity)]
    exact_mod_cast Iff.rfl

theorem decimalExponent_succ (value unit tries : ℕ) (exponent : ℤ) :
    decimalExponent value unit (tries + 1) exponent =
      if (value : ℚ) < unit * 10 ^ exponent then exponent
      else decimalExponent value unit tries (exponent + 1) := by
  rw [decimalExponent]
  exact if_congr (below_iff value unit exponent) rfl rfl

theorem le_decimalExponent (value unit tries : ℕ) (exponent : ℤ) :
    exponent ≤ decimalExponent value unit tries exponent := by
  induction tries generalizing exponent with
  | zero => exact le_rfl
  | succ tries ih =>
      rw [decimalExponent_succ]
      split
      next => exact le_rfl
      next => exact (Int.le_add_one le_rfl).trans (ih (exponent + 1))

theorem decimalExponent_low (h : unit * 10 ^ (exponent - 1) ≤ (value : ℚ)) :
    unit * 10 ^ (decimalExponent value unit tries exponent - 1) ≤ (value : ℚ) := by
  induction tries generalizing exponent with
  | zero => exact h
  | succ tries ih =>
      rw [decimalExponent_succ]
      split
      next => exact h
      next habove =>
        apply ih
        rw [add_sub_cancel_right]
        exact not_lt.mp habove

theorem decimalExponent_high (h : (value : ℚ) < unit * 10 ^ (exponent + tries)) :
    (value : ℚ) < unit * 10 ^ decimalExponent value unit tries exponent := by
  induction tries generalizing exponent with
  | zero => simpa only [decimalExponent, Nat.cast_zero, add_zero] using h
  | succ tries ih =>
      rw [decimalExponent_succ]
      split
      next hbelow => exact hbelow
      next =>
        apply ih
        rw [add_assoc, add_comm 1]
        exact_mod_cast h

/-- A power of two between neighbouring powers of ten gives the decimal logarithms of the powers of
two that are not greater. -/
theorem tenTo_le_twoTo {N P : ℕ} (hN : N ≠ 0) (hless : (10 : ℚ) ^ P ≤ 2 ^ N)
    (hmore : (2 : ℚ) ^ N ≤ 10 ^ (P + 1)) {L q : ℤ} (hlow : -N ≤ L) (hhigh : L ≤ N)
    (hq : q * N ≤ L * P) (hq' : L * P < (q + 1) * N) :
    (10 : ℚ) ^ (q - 2) ≤ 2 ^ L ∧ (2 : ℚ) ^ L ≤ 10 ^ (q + 2) := by
  have hpow (x : ℚ) (a : ℤ) : (x ^ a) ^ N = x ^ (a * N) := by rw [zpow_mul, zpow_natCast]
  have htwo : (2 : ℚ) ^ (L * N) = (2 ^ N) ^ L := by rw [mul_comm, zpow_mul, zpow_natCast]
  have hten (m : ℕ) : ((10 : ℚ) ^ m) ^ L = 10 ^ (m * L) := by rw [zpow_mul, zpow_natCast]
  have hmono {a b : ℤ} (h : a ≤ b) : (10 : ℚ) ^ a ≤ 10 ^ b := zpow_le_zpow_right₀ (by norm_num) h
  have hroot {x y : ℚ} (hx : 0 ≤ x) (hy : 0 ≤ y) (h : x ^ N ≤ y ^ N) : x ≤ y :=
    (pow_le_pow_iff_left₀ hx hy hN).mp h
  suffices h : (10 : ℚ) ^ ((q - 2) * N) ≤ (2 ^ N) ^ L ∧ ((2 : ℚ) ^ N) ^ L ≤ 10 ^ ((q + 2) * N) by
    rw [← htwo, ← hpow, ← hpow, ← hpow] at h
    exact ⟨hroot (by positivity) (by positivity) h.1, hroot (by positivity) (by positivity) h.2⟩
  rcases le_total 0 L with hL | hL
  · obtain ⟨l, rfl⟩ := Int.eq_ofNat_of_zero_le hL
    constructor
    · calc (10 : ℚ) ^ ((q - 2) * N)
          ≤ 10 ^ (P * l : ℤ) := hmono (by nlinarith)
        _ = (10 ^ P) ^ (l : ℤ) := (hten P).symm
        _ ≤ (2 ^ N) ^ (l : ℤ) := by
            rw [zpow_natCast, zpow_natCast]
            exact pow_le_pow_left₀ (by positivity) hless l
    · calc ((2 : ℚ) ^ N) ^ (l : ℤ)
          ≤ (10 ^ (P + 1)) ^ (l : ℤ) := by
            rw [zpow_natCast, zpow_natCast]
            exact pow_le_pow_left₀ (by positivity) hmore l
        _ = 10 ^ ((P + 1 : ℕ) * l : ℤ) := hten (P + 1)
        _ ≤ 10 ^ ((q + 2) * N) := hmono (by push_cast; nlinarith)
  · obtain ⟨l, hl⟩ := Int.eq_ofNat_of_zero_le (Int.neg_nonneg.mpr hL)
    obtain rfl : L = -l := by omega
    constructor
    · calc (10 : ℚ) ^ ((q - 2) * N)
          ≤ 10 ^ ((P + 1 : ℕ) * -l : ℤ) := hmono (by push_cast; nlinarith)
        _ = (10 ^ (P + 1)) ^ (-l : ℤ) := (hten (P + 1)).symm
        _ ≤ (2 ^ N) ^ (-l : ℤ) := by
            rw [zpow_neg, zpow_neg, zpow_natCast, zpow_natCast]
            exact inv_anti₀ (by positivity) (pow_le_pow_left₀ (by positivity) hmore l)
    · calc ((2 : ℚ) ^ N) ^ (-l : ℤ)
          ≤ (10 ^ P) ^ (-l : ℤ) := by
            rw [zpow_neg, zpow_neg, zpow_natCast, zpow_natCast]
            exact inv_anti₀ (by positivity) (pow_le_pow_left₀ (by positivity) hless l)
        _ = 10 ^ (P * -l : ℤ) := hten P
        _ ≤ 10 ^ ((q + 2) * N) := hmono (by nlinarith)

theorem tenTo_logarithm {L : ℤ} (hlow : -4096 ≤ L) (hhigh : L ≤ 4096) :
    (10 : ℚ) ^ (L * 1233 / 4096 - 2) ≤ 2 ^ L ∧ (2 : ℚ) ^ L ≤ 10 ^ (L * 1233 / 4096 + 2) := by
  have hless : (10 : ℚ) ^ 1233 ≤ 2 ^ 4096 := by
    exact_mod_cast (show 10 ^ 1233 ≤ 2 ^ 4096 by decide +kernel)
  have hmore : (2 : ℚ) ^ 4096 ≤ 10 ^ 1234 := by
    exact_mod_cast (show 2 ^ 4096 ≤ 10 ^ 1234 by decide +kernel)
  exact tenTo_le_twoTo (by decide) hless hmore hlow hhigh (by omega) (by omega)

/-- A number with a leading bit lies between two powers of two. -/
theorem twoTo_log2 {m : ℕ} (hm : m ≠ 0) (e : ℤ) :
    (2 : ℚ) ^ (e + m.log2) ≤ m * 2 ^ e ∧ (m * 2 ^ e : ℚ) < 2 * 2 ^ (e + m.log2) := by
  have hpower : (0 : ℚ) < 2 ^ e := by positivity
  have hbits : (2 : ℚ) ^ (e + m.log2) = 2 ^ m.log2 * 2 ^ e := by
    rw [zpow_add₀ two_ne_zero, zpow_natCast, mul_comm]
  constructor
  · rw [hbits]
    exact mul_le_mul_of_nonneg_right (by exact_mod_cast Nat.log2_self_le hm) hpower.le
  · rw [hbits, ← mul_assoc, ← pow_succ']
    exact mul_lt_mul_of_pos_right (by exact_mod_cast Nat.lt_log2_self) hpower

/-- The first exponent that is tried is not too great, and eight more are enough. -/
theorem tenTo_log2 {m : ℕ} {e : ℤ} (hm : m ≠ 0) (hlow : -4096 ≤ e + m.log2)
    (hhigh : e + m.log2 ≤ 4096) :
    (10 : ℚ) ^ ((e + m.log2) * 1233 / 4096 - 1 - 1) ≤ m * 2 ^ e ∧
      (m * 2 ^ e : ℚ) < 10 ^ ((e + m.log2) * 1233 / 4096 - 1 + (8 : ℕ)) := by
  obtain ⟨hten, hten'⟩ := tenTo_logarithm hlow hhigh
  obtain ⟨htwo, htwo'⟩ := twoTo_log2 hm e
  constructor
  · rw [sub_sub]
    exact hten.trans htwo
  · calc (m * 2 ^ e : ℚ)
        < 2 * 2 ^ (e + m.log2) := htwo'
      _ ≤ 10 * 10 ^ ((e + m.log2) * 1233 / 4096 + 2) :=
          mul_le_mul (by norm_num) hten' (by positivity) (by norm_num)
      _ = 10 ^ ((e + m.log2) * 1233 / 4096 + 2 + 1) := by
          rw [zpow_add_one₀ (by norm_num), mul_comm]
      _ ≤ 10 ^ ((e + m.log2) * 1233 / 4096 - 1 + (8 : ℕ)) :=
          zpow_le_zpow_right₀ (by norm_num) (by omega)

end Format
end FloatingPoint
end Bytecode
