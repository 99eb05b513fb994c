import Bytecode.FloatingPoint.Format
import Mathlib.Algebra.Order.Field.Power
import Mathlib.Data.Rat.Cast.Order
import Mathlib.Tactic.FieldSimp
import Mathlib.Tactic.Linarith
import Mathlib.Tactic.NormNum
import Mathlib.Tactic.Positivity
import Mathlib.Tactic.Ring

/-!
# Values of words

A word stands for a rational number unless it is infinite or no number.  Words of one exponent
count in one unit, and a count that carries runs over into the exponent.
-/

namespace Bytecode
namespace FloatingPoint

/-!
# Rounding to a natural number
-/

/-- The number is nearest to `z`, and of two such numbers it is the even one. -/
structure RoundsTo (z : ℚ) (r : ℕ) : Prop where
  close : |z - r| ≤ 1 / 2
  even : |z - r| = 1 / 2 → r % 2 = 0

namespace RoundsTo

variable {z : ℚ} {r : ℕ}

theorem one_le_dist {j : ℤ} (hj : j ≠ r) : 1 - |z - r| ≤ |z - j| := by
  have hapart : (1 : ℚ) ≤ |(j : ℚ) - r| := by
    have hne : j - (r : ℤ) ≠ 0 := sub_ne_zero.mpr hj
    exact_mod_cast Int.one_le_abs hne
  have htriangle : |(j : ℚ) - r| ≤ |(j : ℚ) - z| + |z - r| := abs_sub_le _ _ _
  rw [abs_sub_comm (j : ℚ) z] at htriangle
  linarith

theorem nearest (h : RoundsTo z r) (j : ℤ) : |z - r| ≤ |z - j| := by
  by_cases hj : j = r
  · rw [hj, Int.cast_natCast]
  · linarith [one_le_dist (z := z) hj, h.close]

theorem even_of_tie (h : RoundsTo z r) {j : ℤ} (hj : j ≠ r) (htie : |z - j| = |z - r|) :
    r % 2 = 0 := by
  apply h.even
  linarith [one_le_dist (z := z) hj, h.close]

theorem le_of_le (h : RoundsTo z r) {k : ℕ} (hk : (k : ℚ) ≤ z) : k ≤ r := by
  by_contra hlt
  have hsucc : (r : ℚ) + 1 ≤ k := by exact_mod_cast not_le.mp hlt
  linarith [(abs_le.mp h.close).2]

theorem ge_of_lt (h : RoundsTo z r) {k : ℕ} (hk : z < k) : r ≤ k := by
  by_contra hlt
  have hsucc : (k : ℚ) + 1 ≤ r := by exact_mod_cast not_le.mp hlt
  linarith [(abs_le.mp h.close).1]

end RoundsTo

theorem roundsTo_natCast (n : ℕ) : RoundsTo n n := by
  constructor <;> norm_num

theorem RoundsTo.of_quotient {z : ℚ} {q d rest r : ℕ} (hd : 0 < d) (hz : z = q + rest / d)
    (hrest : rest < d)
    (hr : r = if 2 * rest < d then q else if d < 2 * rest then q + 1 else q + q % 2) :
    RoundsTo z r := by
  have hd' : (0 : ℚ) < d := by exact_mod_cast hd
  have hpart : z - q = (rest : ℚ) / d := by rw [hz]; ring
  have hnonneg : (0 : ℚ) ≤ (rest : ℚ) / d := by positivity
  have hone : (rest : ℚ) / d < 1 := (div_lt_one hd').mpr (by exact_mod_cast hrest)
  -- the rest is less than half of the divisor, more than half, or exactly half
  split_ifs at hr with hless hmore
  · have hhalf : (rest : ℚ) / d < 1 / 2 := by
      rw [div_lt_div_iff₀ hd' two_pos]
      have : (2 : ℚ) * rest < d := by exact_mod_cast hless
      linarith
    subst hr
    rw [← hpart] at hhalf hnonneg
    constructor
    · rw [abs_of_nonneg hnonneg]
      exact hhalf.le
    · rw [abs_of_nonneg hnonneg]
      intro htie
      linarith
  · have hhalf : 1 / 2 < (rest : ℚ) / d := by
      rw [div_lt_div_iff₀ two_pos hd']
      have : (d : ℚ) < 2 * rest := by exact_mod_cast hmore
      linarith
    have hdist : |z - r| = 1 - (rest : ℚ) / d := by
      rw [hr, Nat.cast_add, Nat.cast_one, ← hpart, abs_of_neg] <;> linarith
    constructor
    · linarith
    · intro htie
      linarith
  · have hhalf : (rest : ℚ) / d = 1 / 2 := by
      rw [div_eq_div_iff hd'.ne' two_ne_zero]
      have : (2 : ℚ) * rest = d := by exact_mod_cast (show 2 * rest = d by omega)
      linarith
    rcases Nat.mod_two_eq_zero_or_one q with hq | hq
    · rw [hq, Nat.add_zero] at hr
      subst hr
      rw [hhalf] at hpart
      exact ⟨by rw [hpart]; norm_num, fun _ => hq⟩
    · rw [hq] at hr
      have hdist : z - r = -(1 / 2) := by
        rw [hr, Nat.cast_add, Nat.cast_one]
        linarith
      exact ⟨by rw [hdist]; norm_num, fun _ => by omega⟩

theorem twoTo_eq (n : ℕ) : twoTo n = 2 ^ n := rfl

theorem Format.shiftRoundEven_roundsTo (n shift : ℕ) :
    RoundsTo (n / 2 ^ shift) (shiftRoundEven n shift) := by
  cases shift with
  | zero => simpa [shiftRoundEven] using roundsTo_natCast n
  | succ t =>
      have hpos : 0 < 2 ^ (t + 1) := Nat.two_pow_pos _
      have hmod : n - n / 2 ^ (t + 1) * 2 ^ (t + 1) = n % 2 ^ (t + 1) := by
        rw [Nat.mod_def, Nat.mul_comm]
      have hdouble : 2 ^ (t + 1) = 2 * 2 ^ t := by rw [pow_succ, Nat.mul_comm]
      apply RoundsTo.of_quotient (q := n / 2 ^ (t + 1)) hpos _ (Nat.mod_lt n hpos)
      · unfold shiftRoundEven
        simp only [Nat.shiftRight_eq_div_pow, Nat.shiftLeft_eq, twoTo_eq, Nat.add_sub_cancel,
          Nat.succ_ne_zero, if_false]
        rw [hmod]
        split_ifs <;> omega
      · have hsplit : ((2 ^ (t + 1) : ℕ) : ℚ) * (n / 2 ^ (t + 1) : ℕ) + (n % 2 ^ (t + 1) : ℕ) =
            n := by
          exact_mod_cast Nat.div_add_mod n (2 ^ (t + 1))
        push_cast at hsplit ⊢
        field_simp
        linarith

/-!
# Values of words
-/

def oriented (negative : Bool) (x : ℚ) : ℚ :=
  if negative then -x else x

theorem oriented_injective (negative : Bool) : Function.Injective (oriented negative) := by
  cases negative
  · exact fun _ _ => id
  · exact neg_injective

theorem abs_oriented (negative : Bool) (x : ℚ) : |oriented negative x| = |x| := by
  cases negative
  · rfl
  · exact abs_neg x

theorem oriented_zero (negative : Bool) : oriented negative 0 = 0 := by
  cases negative
  · rfl
  · exact neg_zero

theorem oriented_sub (negative : Bool) (x v : ℚ) :
    oriented negative x - oriented negative v = oriented negative (x - v) := by
  cases negative
  · rfl
  · simp only [oriented, if_true]
    ring

theorem oriented_sub_of_ne {n n' : Bool} (h : n' ≠ n) (x v : ℚ) :
    oriented n x - oriented n' v = oriented n (x + v) := by
  rw [Bool.eq_not.mpr h]
  cases n
  · exact sub_neg_eq_add x v
  · exact (neg_add' x v).symm

theorem abs_sub_le_oriented {x v : ℚ} (hx : 0 ≤ x) (hv : 0 ≤ v) (n n' : Bool) :
    |x - v| ≤ |oriented n x - oriented n' v| := by
  by_cases hn : n' = n
  · rw [hn, oriented_sub, abs_oriented]
  · rw [oriented_sub_of_ne hn, abs_oriented, abs_of_nonneg (add_nonneg hx hv), abs_le]
    constructor <;> linarith

def Datum.value? : Datum → Option ℚ
  | finite negative significand scale => some (oriented negative (significand * 2 ^ scale))
  | _ => none

namespace Format

/-- The fields are wide enough for a fraction, and for exponents beside the top one and zero. -/
structure Proper (f : Format) : Prop where
  fraction : 1 ≤ f.fractionBits
  exponent : 2 ≤ f.exponentBits

theorem single_proper : single.Proper := ⟨by decide, by decide⟩

theorem double_proper : double.Proper := ⟨by decide, by decide⟩

variable {f : Format} {mag k r : ℕ} {x : ℚ}

def magnitudeValue (f : Format) (mag : ℕ) : ℚ :=
  if mag < 2 ^ f.fractionBits then mag * 2 ^ f.leastScale
  else (2 ^ f.fractionBits + mag % 2 ^ f.fractionBits : ℕ) *
    2 ^ (f.leastScale + ((mag / 2 ^ f.fractionBits : ℕ) - 1))

theorem signBit_eq : f.signBit = 2 ^ f.exponentBits * 2 ^ f.fractionBits := by
  rw [signBit, twoTo_eq, pow_add, Nat.mul_comm]

theorem topExponent_eq : f.topExponent + 1 = 2 ^ f.exponentBits := by
  have hpos : 0 < 2 ^ f.exponentBits := Nat.two_pow_pos _
  rw [topExponent, twoTo_eq]
  omega

theorem Proper.two_lt_topExponent (hf : f.Proper) : 2 < f.topExponent := by
  have hfour : 2 ^ 2 ≤ 2 ^ f.exponentBits := Nat.pow_le_pow_right two_pos hf.exponent
  have htop := f.topExponent_eq
  omega

theorem lt_signBit (h : mag ≤ f.topExponent * 2 ^ f.fractionBits) : mag < f.signBit := by
  have hpos : 0 < 2 ^ f.fractionBits := Nat.two_pow_pos _
  rw [signBit_eq, ← topExponent_eq, Nat.add_mul]
  omega

theorem fields_withSign (negative : Bool) (h : mag < f.signBit) :
    f.isNegative (f.withSign negative mag) = negative ∧
      f.fractionField (f.withSign negative mag) = mag % 2 ^ f.fractionBits ∧
        f.exponentField (f.withSign negative mag) = mag / 2 ^ f.fractionBits := by
  have hdiv : mag / 2 ^ f.fractionBits < 2 ^ f.exponentBits := by
    rw [Nat.div_lt_iff_lt_mul (Nat.two_pow_pos _), ← signBit_eq]
    exact h
  have hpos : 0 < f.signBit := Nat.two_pow_pos _
  unfold isNegative fractionField exponentField withSign
  simp only [twoTo_eq]
  cases negative with
  | false =>
      simp only [Bool.false_eq_true, if_false]
      exact ⟨by simp [Nat.div_eq_of_lt h], trivial, Nat.mod_eq_of_lt hdiv⟩
  | true =>
      simp only [if_true]
      refine ⟨?_, ?_, ?_⟩
      · rw [Nat.add_div_left _ hpos, Nat.div_eq_of_lt h]
        rfl
      · rw [signBit_eq, Nat.mul_add_mod_self_right]
      · rw [signBit_eq, Nat.add_comm, Nat.add_mul_div_right _ _ (Nat.two_pow_pos _),
          Nat.add_mod_right, Nat.mod_eq_of_lt hdiv]

theorem value_withSign (negative : Bool) (h : mag < f.topExponent * 2 ^ f.fractionBits) :
    (f.unpack (f.withSign negative mag)).value? =
      some (oriented negative (f.magnitudeValue mag)) := by
  obtain ⟨hsign, hfraction, hexponent⟩ := fields_withSign negative (lt_signBit h.le)
  have htop : mag / 2 ^ f.fractionBits ≠ f.topExponent :=
    Nat.ne_of_lt ((Nat.div_lt_iff_lt_mul (Nat.two_pow_pos _)).mpr h)
  simp only [unpack, hsign, hfraction, hexponent, htop, if_false, magnitudeValue, twoTo_eq]
  by_cases hsmall : mag < 2 ^ f.fractionBits
  · rw [if_pos hsmall, if_pos (Nat.div_eq_of_lt hsmall), Nat.mod_eq_of_lt hsmall]
    rfl
  · have hlarge : mag / 2 ^ f.fractionBits ≠ 0 :=
      (Nat.div_pos (not_lt.mp hsmall) (Nat.two_pow_pos _)).ne'
    rw [if_neg hsmall, if_neg hlarge]
    rfl

theorem unpack_infinity (negative : Bool) :
    f.unpack (f.infinity negative) = .infinite negative := by
  obtain ⟨hsign, hfraction, hexponent⟩ := fields_withSign negative (f.lt_signBit le_rfl)
  unfold unpack infinity
  simp only [twoTo_eq, hsign, hfraction, hexponent, Nat.mul_mod_left,
    Nat.mul_div_cancel _ (Nat.two_pow_pos f.fractionBits), if_true]

/-- The exponent and the fraction of a word as one number. -/
def magnitude (f : Format) (word : ℕ) : ℕ :=
  f.exponentField word * 2 ^ f.fractionBits + f.fractionField word

theorem withSign_magnitude {word : ℕ} (h : word < 2 * f.signBit) :
    f.withSign (f.isNegative word) (f.magnitude word) = word := by
  have hmagnitude : f.magnitude word = word % f.signBit := by
    rw [signBit_eq, Nat.mul_comm (2 ^ f.exponentBits), Nat.mod_mul, magnitude, exponentField,
      fractionField, twoTo_eq, twoTo_eq, Nat.mul_comm, Nat.add_comm]
  have hsplit := Nat.div_add_mod word f.signBit
  have hsign : word / f.signBit < 2 := Nat.div_lt_of_lt_mul (by rwa [Nat.mul_comm])
  unfold withSign isNegative
  rw [hmagnitude]
  rcases (Nat.le_one_iff_eq_zero_or_eq_one).mp (Nat.lt_succ_iff.mp hsign) with hzero | hone
  · rw [hzero, Nat.mul_zero, Nat.zero_add] at hsplit
    simpa [hzero] using hsplit
  · rw [hone, Nat.mul_one] at hsplit
    simpa [hone] using hsplit

/-- A word that stands for a number has an exponent below the top one, and the value of its
magnitude. -/
theorem value_of_word {word : ℕ} {v : ℚ} (h : (f.unpack word).value? = some v) :
    f.magnitude word < f.topExponent * 2 ^ f.fractionBits ∧
      v = oriented (f.isNegative word) (f.magnitudeValue (f.magnitude word)) := by
  have hfraction : f.fractionField word < 2 ^ f.fractionBits := Nat.mod_lt _ (Nat.two_pow_pos _)
  have hexponent : f.exponentField word < f.topExponent + 1 := by
    rw [topExponent_eq]
    exact Nat.mod_lt _ (Nat.two_pow_pos _)
  by_cases htop : f.exponentField word = f.topExponent
  · simp only [unpack, htop, if_true] at h
    split at h <;> cases h
  · constructor
    · have hnext : (f.exponentField word + 1) * 2 ^ f.fractionBits ≤
          f.topExponent * 2 ^ f.fractionBits := Nat.mul_le_mul_right _ (by omega)
      rw [Nat.add_mul] at hnext
      unfold magnitude
      omega
    · simp only [unpack, htop, if_false, twoTo_eq] at h
      unfold magnitudeValue magnitude
      rw [Nat.mul_comm, Nat.mul_add_mod, Nat.mod_eq_of_lt hfraction,
        Nat.mul_add_div (Nat.two_pow_pos _), Nat.div_eq_of_lt hfraction, Nat.add_zero]
      by_cases hzero : f.exponentField word = 0
      · rw [if_pos hzero] at h
        rw [hzero, Nat.mul_zero, Nat.zero_add, if_pos hfraction]
        exact (Option.some.inj h).symm
      · have hone : 2 ^ f.fractionBits * 1 ≤ 2 ^ f.fractionBits * f.exponentField word :=
          Nat.mul_le_mul_left _ (Nat.one_le_iff_ne_zero.mpr hzero)
        rw [if_neg hzero] at h
        rw [if_neg (by omega)]
        exact (Option.some.inj h).symm

theorem magnitude_lt {word significand : ℕ} {negative : Bool} {scale : ℤ}
    (h : f.unpack word = .finite negative significand scale) :
    f.magnitude word < f.topExponent * 2 ^ f.fractionBits := by
  refine (value_of_word (v := oriented negative (significand * 2 ^ scale)) ?_).1
  rw [h]
  rfl

theorem isNegative_of_finite {word significand : ℕ} {negative : Bool} {scale : ℤ}
    (h : f.unpack word = .finite negative significand scale) : f.isNegative word = negative := by
  unfold unpack at h
  dsimp only at h
  split_ifs at h
  all_goals
    injection h

/-!
# Multiples of a unit
-/

/-- The unit in which words of exponent `k + 1` count. -/
def unitAt (f : Format) (k : ℕ) : ℚ :=
  2 ^ (f.leastScale + k)

theorem unitAt_pos (f : Format) (k : ℕ) : 0 < f.unitAt k := by
  unfold unitAt
  positivity

theorem unitAt_add (f : Format) (k d : ℕ) : f.unitAt (k + d) = 2 ^ d * f.unitAt k := by
  unfold unitAt
  rw [Nat.cast_add, ← add_assoc, zpow_add₀ two_ne_zero, zpow_natCast, mul_comm]

theorem unitAt_mono {k k' : ℕ} (h : k ≤ k') : f.unitAt k ≤ f.unitAt k' := by
  obtain ⟨d, rfl⟩ := Nat.exists_eq_add_of_le h
  rw [unitAt_add]
  exact le_mul_of_one_le_left (f.unitAt_pos k).le (one_le_pow₀ one_le_two)

theorem magnitudeValue_of_lt (h : mag < 2 ^ f.fractionBits) :
    f.magnitudeValue mag = mag * f.unitAt 0 := by
  rw [magnitudeValue, if_pos h, unitAt, Nat.cast_zero, add_zero]

theorem magnitudeValue_exponent (e : ℕ) {fraction : ℕ} (h : fraction < 2 ^ f.fractionBits) :
    f.magnitudeValue ((e + 1) * 2 ^ f.fractionBits + fraction) =
      (2 ^ f.fractionBits + fraction : ℕ) * f.unitAt e := by
  have hlarge : ¬ (e + 1) * 2 ^ f.fractionBits + fraction < 2 ^ f.fractionBits := by
    rw [Nat.add_mul]
    omega
  rw [magnitudeValue, if_neg hlarge, Nat.mul_comm, Nat.mul_add_mod, Nat.mod_eq_of_lt h,
    Nat.mul_add_div (Nat.two_pow_pos _), Nat.div_eq_of_lt h, Nat.add_zero, Nat.cast_succ,
    add_sub_cancel_right, unitAt]

theorem magnitude_cases (f : Format) (mag : ℕ) :
    mag < 2 ^ f.fractionBits ∨ ∃ e fraction, fraction < 2 ^ f.fractionBits ∧
      mag = (e + 1) * 2 ^ f.fractionBits + fraction := by
  by_cases hsmall : mag < 2 ^ f.fractionBits
  · exact .inl hsmall
  · obtain ⟨e, he⟩ := Nat.exists_eq_succ_of_ne_zero
      (Nat.div_pos (not_lt.mp hsmall) (Nat.two_pow_pos f.fractionBits)).ne'
    refine .inr ⟨e, mag % 2 ^ f.fractionBits, Nat.mod_lt _ (Nat.two_pow_pos _), ?_⟩
    rw [← Nat.succ_eq_add_one, ← he, Nat.mul_comm]
    exact (Nat.div_add_mod _ _).symm

theorem magnitudeValue_nonneg (f : Format) (mag : ℕ) : 0 ≤ f.magnitudeValue mag := by
  rcases f.magnitude_cases mag with hsmall | ⟨e, fraction, hfraction, rfl⟩
  · rw [magnitudeValue_of_lt hsmall]
    exact mul_nonneg (Nat.cast_nonneg _) (f.unitAt_pos 0).le
  · rw [magnitudeValue_exponent e hfraction]
    exact mul_nonneg (Nat.cast_nonneg _) (f.unitAt_pos e).le

/-- A count of units is written so that a carry runs over into the exponent. -/
theorem magnitudeValue_of_units (hr : r ≤ 2 * 2 ^ f.fractionBits)
    (hk : k = 0 ∨ 2 ^ f.fractionBits ≤ r) :
    f.magnitudeValue (k * 2 ^ f.fractionBits + r) = r * f.unitAt k := by
  by_cases hsmall : r < 2 ^ f.fractionBits
  · obtain rfl : k = 0 := hk.resolve_right (not_le.mpr hsmall)
    rw [Nat.zero_mul, Nat.zero_add, magnitudeValue_of_lt hsmall]
  · obtain ⟨fraction, rfl⟩ := Nat.exists_eq_add_of_le (not_lt.mp hsmall)
    rcases Nat.lt_or_eq_of_le hr with hless | hcarry
    · have hsplit : k * 2 ^ f.fractionBits + (2 ^ f.fractionBits + fraction) =
          (k + 1) * 2 ^ f.fractionBits + fraction := by ring
      rw [hsplit, magnitudeValue_exponent k (by omega)]
    · have hsplit : k * 2 ^ f.fractionBits + 2 * 2 ^ f.fractionBits =
          (k + 1 + 1) * 2 ^ f.fractionBits + 0 := by ring
      rw [hcarry, hsplit, magnitudeValue_exponent (k + 1) (Nat.two_pow_pos _), unitAt_add]
      push_cast
      ring

theorem finite_units {word m : ℕ} {e : ℤ} {negative : Bool}
    (h : f.unpack word = .finite negative m e) :
    ∃ k : ℕ, e = f.leastScale + k ∧ k < f.topExponent ∧ m < 2 * 2 ^ f.fractionBits ∧
      (k = 0 ∨ 2 ^ f.fractionBits ≤ m) ∧ f.magnitude word = k * 2 ^ f.fractionBits + m := by
  have hfraction : f.fractionField word < 2 ^ f.fractionBits := Nat.mod_lt _ (Nat.two_pow_pos _)
  have hexponent : f.exponentField word < f.topExponent + 1 := by
    rw [topExponent_eq]
    exact Nat.mod_lt _ (Nat.two_pow_pos _)
  unfold unpack at h
  simp only [twoTo_eq] at h
  split_ifs at h with htop hnone hzero <;> cases h
  · refine ⟨0, by simp, by omega, by omega, .inl rfl, ?_⟩
    rw [magnitude, hzero]
  · obtain ⟨k, hk⟩ := Nat.exists_eq_succ_of_ne_zero hzero
    refine ⟨k, ?_, by omega, by omega, .inr (Nat.le_add_right _ _), ?_⟩
    · rw [hk]
      push_cast
      ring
    · rw [magnitude, hk, Nat.succ_mul]
      ring

theorem magnitudeValue_magnitude {word m : ℕ} {e : ℤ} {negative : Bool}
    (h : f.unpack word = .finite negative m e) :
    f.magnitudeValue (f.magnitude word) = m * 2 ^ e := by
  obtain ⟨k, he, -, hlt, hnormal, hmagnitude⟩ := finite_units h
  rw [hmagnitude, magnitudeValue_of_units hlt.le hnormal, unitAt, he]

theorem exists_units (f : Format) (mag : ℕ) :
    ∃ k r, mag = k * 2 ^ f.fractionBits + r ∧ r < 2 * 2 ^ f.fractionBits ∧
      (k = 0 ∨ 2 ^ f.fractionBits ≤ r) := by
  rcases f.magnitude_cases mag with hsmall | ⟨e, fraction, hfraction, rfl⟩
  · exact ⟨0, mag, by ring, by omega, .inl rfl⟩
  · exact ⟨e, 2 ^ f.fractionBits + fraction, by ring, by omega, .inr (Nat.le_add_right _ _)⟩

theorem magnitudeValue_strictMono (f : Format) : StrictMono f.magnitudeValue := by
  apply strictMono_nat_of_lt_succ
  intro mag
  obtain ⟨k, r, rfl, hr, hk⟩ := f.exists_units mag
  have hk' : k = 0 ∨ 2 ^ f.fractionBits ≤ r + 1 := hk.imp_right Nat.le_succ_of_le
  rw [Nat.add_assoc, magnitudeValue_of_units hr.le hk, magnitudeValue_of_units hr hk']
  exact mul_lt_mul_of_pos_right (by exact_mod_cast r.lt_succ_self) (f.unitAt_pos k)

theorem magnitudeValue_multiple (h : k = 0 ∨ (k + 1) * 2 ^ f.fractionBits ≤ mag) :
    ∃ j : ℕ, f.magnitudeValue mag = j * f.unitAt k := by
  rcases f.magnitude_cases mag with hsmall | ⟨e, fraction, hfraction, rfl⟩
  · have hzero : k = 0 := by
      refine h.resolve_right fun hle => ?_
      rw [Nat.add_mul] at hle
      omega
    exact ⟨mag, by rw [magnitudeValue_of_lt hsmall, hzero]⟩
  · have hke : k ≤ e := by
      rcases h with rfl | hle
      · exact Nat.zero_le e
      · have hlt : (k + 1) * 2 ^ f.fractionBits < (e + 1 + 1) * 2 ^ f.fractionBits := by
          rw [Nat.add_mul (e + 1)]
          omega
        have := Nat.lt_of_mul_lt_mul_right hlt
        omega
    obtain ⟨d, rfl⟩ := Nat.exists_eq_add_of_le hke
    refine ⟨(2 ^ f.fractionBits + fraction) * 2 ^ d, ?_⟩
    rw [magnitudeValue_exponent _ hfraction, unitAt_add]
    push_cast
    ring

theorem magnitudeValue_lt (h : mag < (k + 1) * 2 ^ f.fractionBits) :
    f.magnitudeValue mag < 2 ^ f.fractionBits * f.unitAt k := by
  have hpower : (0 : ℚ) < 2 ^ f.fractionBits := by positivity
  rcases f.magnitude_cases mag with hsmall | ⟨e, fraction, hfraction, rfl⟩
  · have hmag : (mag : ℚ) < 2 ^ f.fractionBits := by exact_mod_cast hsmall
    rw [magnitudeValue_of_lt hsmall]
    calc mag * f.unitAt 0
        < 2 ^ f.fractionBits * f.unitAt 0 := mul_lt_mul_of_pos_right hmag (f.unitAt_pos 0)
      _ ≤ 2 ^ f.fractionBits * f.unitAt k :=
          mul_le_mul_of_nonneg_left (unitAt_mono (Nat.zero_le k)) hpower.le
  · have hek : e + 1 ≤ k := by
      have hlt : (e + 1) * 2 ^ f.fractionBits < (k + 1) * 2 ^ f.fractionBits := by omega
      exact Nat.lt_succ_iff.mp (Nat.lt_of_mul_lt_mul_right hlt)
    have hsum : ((2 ^ f.fractionBits + fraction : ℕ) : ℚ) < 2 ^ f.fractionBits * 2 := by
      exact_mod_cast (show 2 ^ f.fractionBits + fraction < 2 ^ f.fractionBits * 2 by omega)
    rw [magnitudeValue_exponent _ hfraction]
    calc ((2 ^ f.fractionBits + fraction : ℕ) : ℚ) * f.unitAt e
        < 2 ^ f.fractionBits * 2 * f.unitAt e := mul_lt_mul_of_pos_right hsum (f.unitAt_pos e)
      _ = 2 ^ f.fractionBits * f.unitAt (e + 1) := by rw [unitAt_add]; ring
      _ ≤ 2 ^ f.fractionBits * f.unitAt k := mul_le_mul_of_nonneg_left (unitAt_mono hek) hpower.le

end Format
end FloatingPoint
end Bytecode
