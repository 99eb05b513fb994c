import Bytecode.Proofs.FloatingPoint.Values

/-!
# Rounding

Packing an exact dyadic number gives the word nearest to it, with a tie broken toward the even word,
and gives an infinity exactly from the middle between the greatest word and the next power of two
on.
-/

namespace Bytecode
namespace FloatingPoint
namespace Format

variable {f : Format} {mag k r : ℕ} {x : ℚ}

/-!
# Nearest words
-/

/-- The least magnitude that is too large: half a unit above the greatest word. -/
def overflow (f : Format) : ℚ :=
  (2 * 2 ^ f.fractionBits - 1 / 2) * f.unitAt (f.topExponent - 2)

theorem overflow_pos (f : Format) : 0 < f.overflow := by
  have hone : (1 : ℚ) ≤ 2 ^ f.fractionBits := one_le_pow₀ one_le_two
  exact mul_pos (by linarith) (f.unitAt_pos _)

theorem magnitudeValue_lt_overflow (hf : f.Proper)
    (h : mag < f.topExponent * 2 ^ f.fractionBits) : f.magnitudeValue mag < f.overflow := by
  obtain ⟨t, ht⟩ := Nat.exists_eq_add_of_le hf.two_lt_topExponent.le
  have hgreatest : mag ≤ t * 2 ^ f.fractionBits + (2 * 2 ^ f.fractionBits - 1) := by
    rw [ht, Nat.add_mul] at h
    omega
  have hone : 1 ≤ 2 ^ f.fractionBits := Nat.one_le_two_pow
  have hcast : ((2 * 2 ^ f.fractionBits - 1 : ℕ) : ℚ) = 2 * 2 ^ f.fractionBits - 1 := by
    rw [Nat.cast_sub (by omega)]
    norm_cast
  calc f.magnitudeValue mag
      ≤ f.magnitudeValue (t * 2 ^ f.fractionBits + (2 * 2 ^ f.fractionBits - 1)) :=
        f.magnitudeValue_strictMono.monotone hgreatest
    _ = (2 * 2 ^ f.fractionBits - 1) * f.unitAt t := by
        rw [magnitudeValue_of_units (by omega) (.inr (by omega)), hcast]
    _ < (2 * 2 ^ f.fractionBits - 1 / 2) * f.unitAt t :=
        mul_lt_mul_of_pos_right (by linarith) (f.unitAt_pos t)
    _ = f.overflow := by rw [overflow, ht, Nat.add_sub_cancel_left]

theorem withSign_even (hf : f.Proper) (negative : Bool) :
    f.withSign negative (k * 2 ^ f.fractionBits + r) % 2 = r % 2 := by
  obtain ⟨b, hb⟩ := Nat.exists_eq_add_of_le hf.fraction
  have hsign : f.signBit = 2 * (2 ^ f.exponentBits * 2 ^ b) := by
    rw [signBit_eq, hb, pow_add]
    ring
  have hword : k * 2 ^ f.fractionBits = 2 * (k * 2 ^ b) := by
    rw [hb, pow_add]
    ring
  unfold withSign
  split <;> omega

/-- The word is the one that a number rounds to: nearest to it among all words, even when another
word is as near, and infinite from the overflow on. -/
inductive Rounds (f : Format) (y : ℚ) (word : ℕ) : Prop where
  | finite {v : ℚ} (hvalue : (f.unpack word).value? = some v) (hrange : |y| < f.overflow)
      (hnearest : ∀ other v', (f.unpack other).value? = some v' → |y - v| ≤ |y - v'|)
      (heven : ∀ other v', (f.unpack other).value? = some v' → v' ≠ v → |y - v'| = |y - v| →
        word % 2 = 0)
      (hsign : y ≠ 0 → f.isNegative word = decide (y < 0))
  | infinite (hword : f.unpack word = .infinite (y < 0)) (hrange : f.overflow ≤ |y|)

theorem Rounds.exact {y : ℚ} {word other : ℕ} (h : f.Rounds y word) (hf : f.Proper)
    (hy : (f.unpack other).value? = some y) : (f.unpack word).value? = some y := by
  cases h with
  | @finite v hvalue hrange hnearest heven hsign =>
      have hzero := hnearest other y hy
      rw [sub_self, abs_zero, abs_nonpos_iff, sub_eq_zero] at hzero
      rw [hvalue, hzero]
  | infinite hword hrange =>
      obtain ⟨hmag, rfl⟩ := value_of_word hy
      rw [abs_oriented, abs_of_nonneg (f.magnitudeValue_nonneg _)] at hrange
      exact absurd (magnitudeValue_lt_overflow hf hmag) (not_lt.mpr hrange)

/-- A number between zero and twice the first word of an exponent, with its count of units. -/
structure Counted (f : Format) (x : ℚ) (k r : ℕ) : Prop where
  nonneg : 0 ≤ x
  low : k = 0 ∨ 2 ^ f.fractionBits * f.unitAt k ≤ x
  high : x < 2 * 2 ^ f.fractionBits * f.unitAt k
  rounds : RoundsTo (x / f.unitAt k) r

theorem dist_units (q : ℚ) : |x - q * f.unitAt k| = |x / f.unitAt k - q| * f.unitAt k := by
  have hunit := f.unitAt_pos k
  have hscale : x - q * f.unitAt k = (x / f.unitAt k - q) * f.unitAt k := by
    field_simp
  rw [hscale, abs_mul, abs_of_pos hunit]

namespace Counted

variable (h : f.Counted x k r)

include h

theorem le_double : r ≤ 2 * 2 ^ f.fractionBits := by
  apply h.rounds.ge_of_lt
  rw [div_lt_iff₀ (f.unitAt_pos k)]
  exact_mod_cast h.high

theorem normal : k = 0 ∨ 2 ^ f.fractionBits ≤ r := by
  refine h.low.imp_right fun hlow => h.rounds.le_of_le ?_
  rw [le_div_iff₀ (f.unitAt_pos k)]
  exact_mod_cast hlow

theorem value : f.magnitudeValue (k * 2 ^ f.fractionBits + r) = r * f.unitAt k :=
  magnitudeValue_of_units h.le_double h.normal

theorem nearest_count (j : ℤ) : |x - r * f.unitAt k| ≤ |x - j * f.unitAt k| := by
  rw [dist_units, dist_units]
  exact mul_le_mul_of_nonneg_right (h.rounds.nearest j) (f.unitAt_pos k).le

/-- No magnitude is nearer, and one that is as near makes the count even. -/
theorem nearest (other : ℕ) :
    |x - r * f.unitAt k| ≤ |x - f.magnitudeValue other| ∧
      (f.magnitudeValue other ≠ r * f.unitAt k →
        |x - f.magnitudeValue other| = |x - r * f.unitAt k| → r % 2 = 0) := by
  by_cases hother : k = 0 ∨ (k + 1) * 2 ^ f.fractionBits ≤ other
  · obtain ⟨j, hj⟩ := magnitudeValue_multiple hother
    rw [hj]
    refine ⟨by exact_mod_cast h.nearest_count j, fun hne htie => ?_⟩
    rw [dist_units, dist_units] at htie
    have hcount := mul_right_cancel₀ (f.unitAt_pos k).ne' htie
    apply h.rounds.even_of_tie (j := j) _ (by exact_mod_cast hcount)
    intro heq
    apply hne
    have hcast : (j : ℚ) = r := by exact_mod_cast heq
    rw [hcast]
  · -- a finer word lies below the first word of the exponent, which is a count of units
    rw [not_or, not_le] at hother
    have hbelow := magnitudeValue_lt hother.2
    have hlow := h.low.resolve_left hother.1
    have hfirst := h.nearest_count (2 ^ f.fractionBits : ℕ)
    push_cast at hfirst
    rw [abs_of_nonneg (sub_nonneg.mpr hlow)] at hfirst
    have hstrict : |x - r * f.unitAt k| < |x - f.magnitudeValue other| := by
      rw [abs_of_pos (a := x - f.magnitudeValue other) (by linarith)]
      linarith
    exact ⟨hstrict.le, fun _ htie => absurd htie hstrict.ne'⟩

/-- In the unit of the greatest words it is the rounding that decides: the greatest count is odd, so
the half above it is rounded up. -/
theorem top_overflow_iff :
    (2 + k) * 2 ^ f.fractionBits ≤ k * 2 ^ f.fractionBits + r ↔
      (2 * 2 ^ f.fractionBits - 1 / 2) * f.unitAt k ≤ x := by
  have hz : (2 * 2 ^ f.fractionBits - 1 / 2) * f.unitAt k ≤ x ↔
      2 * 2 ^ f.fractionBits - 1 / 2 ≤ x / f.unitAt k := (le_div_iff₀ (f.unitAt_pos k)).symm
  have hclose := abs_le.mp h.rounds.close
  rw [hz, Nat.add_mul]
  constructor
  · intro hle
    have hcount : (2 * 2 ^ f.fractionBits : ℚ) ≤ r := by
      exact_mod_cast (show 2 * 2 ^ f.fractionBits ≤ r by omega)
    linarith [hclose.1]
  · intro hle
    by_contra hless
    have hcount : (r : ℚ) + 1 ≤ 2 * 2 ^ f.fractionBits := by
      exact_mod_cast (show r + 1 ≤ 2 * 2 ^ f.fractionBits by omega)
    have htie : |x / f.unitAt k - r| = 1 / 2 := by
      rw [abs_of_nonneg] <;> linarith [hclose.2]
    have heven := h.rounds.even htie
    have hodd : (r : ℚ) + 1 = 2 * 2 ^ f.fractionBits := by linarith [hclose.2]
    have hodd' : r + 1 = 2 * 2 ^ f.fractionBits := by exact_mod_cast hodd
    omega

theorem overflow_iff (hf : f.Proper) :
    f.topExponent * 2 ^ f.fractionBits ≤ k * 2 ^ f.fractionBits + r ↔ f.overflow ≤ x := by
  obtain ⟨t, ht⟩ := Nat.exists_eq_add_of_le hf.two_lt_topExponent.le
  have hpos : 0 < 2 ^ f.fractionBits := Nat.two_pow_pos _
  have hone : (1 : ℚ) ≤ 2 ^ f.fractionBits := one_le_pow₀ one_le_two
  have hunit := f.unitAt_pos t
  have hdouble := f.unitAt_add t 1
  have hr := h.le_double
  have hhigh := h.high
  unfold overflow
  rw [ht, Nat.add_sub_cancel_left]
  rcases lt_trichotomy k t with hlt | rfl | hgt
  · have hwords : (k + 1) * 2 ^ f.fractionBits ≤ t * 2 ^ f.fractionBits :=
      Nat.mul_le_mul_right _ hlt
    have hsmall : ¬ (2 + t) * 2 ^ f.fractionBits ≤ k * 2 ^ f.fractionBits + r := by
      rw [Nat.add_mul] at hwords ⊢
      omega
    have hbelow : 2 ^ f.fractionBits * f.unitAt (k + 1) ≤ 2 ^ f.fractionBits * f.unitAt t :=
      mul_le_mul_of_nonneg_left (unitAt_mono hlt) (by positivity)
    rw [unitAt_add] at hbelow
    refine iff_of_false hsmall (not_le.mpr ?_)
    nlinarith
  · exact h.top_overflow_iff
  · have hk : k ≠ 0 := Nat.ne_of_gt (Nat.zero_lt_of_lt hgt)
    have hnormal := h.normal.resolve_left hk
    have hlow := h.low.resolve_left hk
    have hwords : (t + 1) * 2 ^ f.fractionBits ≤ k * 2 ^ f.fractionBits :=
      Nat.mul_le_mul_right _ hgt
    have hlarge : (2 + t) * 2 ^ f.fractionBits ≤ k * 2 ^ f.fractionBits + r := by
      rw [Nat.add_mul] at hwords ⊢
      omega
    have habove : 2 ^ f.fractionBits * f.unitAt (t + 1) ≤ 2 ^ f.fractionBits * f.unitAt k :=
      mul_le_mul_of_nonneg_left (unitAt_mono hgt) (by positivity)
    rw [unitAt_add] at habove
    refine iff_of_true hlarge ?_
    nlinarith

theorem even_of_tie {negative negative' : Bool} {mag : ℕ}
    (hne : oriented negative' (f.magnitudeValue mag) ≠ oriented negative (r * f.unitAt k))
    (htie : |oriented negative x - oriented negative' (f.magnitudeValue mag)| =
      |oriented negative x - oriented negative (r * f.unitAt k)|) : r % 2 = 0 := by
  rw [oriented_sub negative x (r * f.unitAt k), abs_oriented] at htie
  have hmag := f.magnitudeValue_nonneg mag
  have hnear := (h.nearest mag).1
  by_cases hsame : f.magnitudeValue mag = r * f.unitAt k
  · -- the two words differ in their sign, so both are as near as zero is
    have hsides : negative' ≠ negative := by
      rintro rfl
      exact hne (by rw [hsame])
    have hzero := h.nearest_count 0
    rw [oriented_sub_of_ne hsides, abs_oriented, abs_of_nonneg (add_nonneg h.nonneg hmag)] at htie
    rw [Int.cast_zero, zero_mul, sub_zero, abs_of_nonneg h.nonneg, ← htie, hsame] at hzero
    have hcount : (r : ℚ) * f.unitAt k ≤ 0 := by linarith
    have hr : (r : ℚ) ≤ 0 := le_of_mul_le_mul_right (by rwa [zero_mul]) (f.unitAt_pos k)
    have hr' : r = 0 := Nat.le_zero.mp (by exact_mod_cast hr)
    rw [hr']
  · apply (h.nearest mag).2 hsame
    have hfar := abs_sub_le_oriented h.nonneg hmag negative negative'
    exact le_antisymm (hfar.trans htie.le) hnear

/-- The count written as a word, or an infinity, is what the number rounds to. -/
theorem rounds_word (hf : f.Proper) (negative : Bool) :
    f.Rounds (oriented negative x)
      (if f.topExponent * 2 ^ f.fractionBits ≤ k * 2 ^ f.fractionBits + r then f.infinity negative
      else f.withSign negative (k * 2 ^ f.fractionBits + r)) := by
  have habs : |oriented negative x| = x := by rw [abs_oriented, abs_of_nonneg h.nonneg]
  have hsign (hx : 0 < x) : negative = decide (oriented negative x < 0) := by
    cases negative
    · exact (decide_eq_false (not_lt.mpr hx.le)).symm
    · exact (decide_eq_true (neg_neg_of_pos hx)).symm
  by_cases hlarge : f.topExponent * 2 ^ f.fractionBits ≤ k * 2 ^ f.fractionBits + r
  · have hrange := (h.overflow_iff hf).mp hlarge
    rw [if_pos hlarge]
    refine .infinite ?_ (by rwa [habs])
    rw [unpack_infinity, ← hsign (f.overflow_pos.trans_le hrange)]
  · have hrange : x < f.overflow := not_le.mp (mt (h.overflow_iff hf).mpr hlarge)
    have hword := value_withSign negative (not_le.mp hlarge)
    rw [h.value] at hword
    rw [if_neg hlarge]
    refine .finite hword (by rwa [habs]) ?_ ?_ ?_
    · intro other v' hv'
      obtain ⟨-, rfl⟩ := value_of_word hv'
      rw [oriented_sub, abs_oriented]
      exact (h.nearest _).1.trans (abs_sub_le_oriented h.nonneg (f.magnitudeValue_nonneg _) _ _)
    · intro other v' hv' hne htie
      rw [withSign_even hf]
      obtain ⟨-, rfl⟩ := value_of_word hv'
      exact h.even_of_tie hne htie
    · intro hne
      have hx : 0 < x := by
        refine lt_of_le_of_ne h.nonneg fun hzero => hne ?_
        rw [← hzero, oriented_zero]
      rw [(fields_withSign negative (lt_signBit (not_le.mp hlarge).le)).1, ← hsign hx]

end Counted

/-!
# Packing
-/

/-- Exponent of the unit in which a dyadic number is counted. -/
def packedExponent (f : Format) (significand : ℕ) (scale : ℤ) : ℕ :=
  (max (scale + (significand.log2 - f.fractionBits)) f.leastScale - f.leastScale).toNat

def packedCount (f : Format) (significand : ℕ) (scale : ℤ) : ℕ :=
  let unit := f.leastScale + f.packedExponent significand scale
  if unit ≤ scale then significand <<< (scale - unit).toNat
  else shiftRoundEven significand (unit - scale).toNat

variable {significand : ℕ} {scale : ℤ}

theorem leastScale_add_packedExponent (f : Format) (significand : ℕ) (scale : ℤ) :
    f.leastScale + f.packedExponent significand scale =
      max (scale + (significand.log2 - f.fractionBits)) f.leastScale := by
  unfold packedExponent
  rw [Int.toNat_of_nonneg (sub_nonneg.mpr (le_max_right _ _))]
  ring

theorem packedCount_rounds :
    RoundsTo (significand * 2 ^ scale / f.unitAt (f.packedExponent significand scale))
      (f.packedCount significand scale) := by
  unfold packedCount unitAt
  generalize f.leastScale + f.packedExponent significand scale = unit
  dsimp only
  by_cases hunit : unit ≤ scale
  · obtain ⟨d, rfl⟩ := Int.le.dest hunit
    have hcount : (significand : ℚ) * 2 ^ (unit + d) / 2 ^ unit =
        (significand <<< (unit + d - unit).toNat : ℕ) := by
      rw [add_sub_cancel_left, Int.toNat_natCast, Nat.shiftLeft_eq, zpow_add₀ two_ne_zero,
        zpow_natCast]
      push_cast
      field_simp
    rw [if_pos hunit, hcount]
    exact roundsTo_natCast _
  · obtain ⟨d, rfl⟩ := Int.le.dest (not_le.mp hunit).le
    have hcount : (significand : ℚ) * 2 ^ scale / 2 ^ (scale + d) =
        significand / 2 ^ (scale + d - scale).toNat := by
      rw [add_sub_cancel_left, Int.toNat_natCast, zpow_add₀ two_ne_zero, zpow_natCast]
      field_simp
    rw [if_neg hunit, hcount]
    exact shiftRoundEven_roundsTo _ _

/-- The leading bit decides on the unit, unless the number is too small for that. -/
theorem packed_counted (hm : significand ≠ 0) :
    f.Counted (significand * 2 ^ scale) (f.packedExponent significand scale)
      (f.packedCount significand scale) := by
  have hlog : (2 ^ significand.log2 : ℚ) ≤ significand := by
    exact_mod_cast Nat.log2_self_le hm
  have hlog' : (significand : ℚ) < 2 ^ (significand.log2 + 1) := by
    exact_mod_cast Nat.lt_log2_self
  have hscale : (0 : ℚ) < 2 ^ scale := by positivity
  have hunit : f.unitAt (f.packedExponent significand scale) = 2 ^ max
      (scale + (significand.log2 - f.fractionBits)) f.leastScale := by
    rw [unitAt, leastScale_add_packedExponent]
  refine ⟨by positivity, ?_, ?_, packedCount_rounds⟩
  · by_cases hleast : scale + ((significand.log2 : ℤ) - f.fractionBits) ≤ f.leastScale
    · left
      rw [packedExponent, max_eq_right hleast, sub_self, Int.toNat_zero]
    · right
      rw [hunit, max_eq_left (not_le.mp hleast).le]
      calc (2 : ℚ) ^ f.fractionBits * 2 ^ (scale + ((significand.log2 : ℤ) - f.fractionBits))
          = 2 ^ significand.log2 * 2 ^ scale := by
            rw [← zpow_natCast, ← zpow_natCast, ← zpow_add₀ two_ne_zero, ← zpow_add₀ two_ne_zero]
            congr 1
            ring
        _ ≤ significand * 2 ^ scale := mul_le_mul_of_nonneg_right hlog hscale.le
  · rw [hunit]
    calc (significand : ℚ) * 2 ^ scale
        < 2 ^ (significand.log2 + 1) * 2 ^ scale := mul_lt_mul_of_pos_right hlog' hscale
      _ = 2 ^ (f.fractionBits + 1 : ℕ) *
            2 ^ (scale + ((significand.log2 : ℤ) - f.fractionBits)) := by
            rw [← zpow_natCast, ← zpow_natCast, ← zpow_add₀ two_ne_zero, ← zpow_add₀ two_ne_zero]
            congr 1
            push_cast
            ring
      _ ≤ 2 ^ (f.fractionBits + 1 : ℕ) *
            2 ^ max (scale + ((significand.log2 : ℤ) - f.fractionBits)) f.leastScale := by
            apply mul_le_mul_of_nonneg_left _ (by positivity)
            exact zpow_le_zpow_right₀ one_le_two (le_max_left _ _)
      _ = 2 * 2 ^ f.fractionBits *
            2 ^ max (scale + ((significand.log2 : ℤ) - f.fractionBits)) f.leastScale := by
            rw [pow_succ]
            ring

theorem pack_eq (negative : Bool) (hm : significand ≠ 0) :
    f.pack negative significand scale =
      let magnitude := f.packedExponent significand scale * 2 ^ f.fractionBits +
        f.packedCount significand scale
      if f.topExponent * 2 ^ f.fractionBits ≤ magnitude then f.infinity negative
      else f.withSign negative magnitude := by
  have hcounted : f.Counted (significand * 2 ^ scale) _ _ := packed_counted hm
  have hnormal := hcounted.normal
  have hunit := f.leastScale_add_packedExponent significand scale
  have hcount : (if f.leastScale + f.packedExponent significand scale ≤ scale then
      significand <<< (scale - (f.leastScale + f.packedExponent significand scale)).toNat
    else shiftRoundEven significand
      (f.leastScale + f.packedExponent significand scale - scale).toNat) =
        f.packedCount significand scale := rfl
  unfold pack
  simp only [hm, if_false, twoTo_eq, ← hunit, add_sub_cancel_left, Int.toNat_natCast, hcount]
  -- below the first exponent nothing is carried; above it the leading bit counts as one
  have hmagnitude : (if f.packedCount significand scale < 2 ^ f.fractionBits then
      f.packedCount significand scale
    else (f.packedExponent significand scale + 1) * 2 ^ f.fractionBits +
      (f.packedCount significand scale - 2 ^ f.fractionBits)) =
        f.packedExponent significand scale * 2 ^ f.fractionBits +
          f.packedCount significand scale := by
    split
    next hsmall =>
        rw [hnormal.resolve_right (not_le.mpr hsmall), Nat.zero_mul, Nat.zero_add]
    next hlarge =>
        rw [Nat.add_mul]
        omega
  rw [hmagnitude]

/-- Packing rounds. -/
theorem pack_rounds (hf : f.Proper) (negative : Bool) (significand : ℕ) (scale : ℤ) :
    f.Rounds (oriented negative (significand * 2 ^ scale)) (f.pack negative significand scale) := by
  by_cases hm : significand = 0
  · have hcounted : f.Counted 0 0 0 := by
      refine ⟨le_rfl, .inl rfl, mul_pos (by positivity) (f.unitAt_pos 0), ?_⟩
      rw [zero_div]
      exact roundsTo_natCast 0
    have hzero := hcounted.rounds_word hf negative
    have htop : ¬ f.topExponent * 2 ^ f.fractionBits ≤ 0 * 2 ^ f.fractionBits + 0 := by
      rw [hcounted.overflow_iff hf]
      exact not_le.mpr f.overflow_pos
    rw [if_neg htop, Nat.zero_mul] at hzero
    simpa only [pack, hm, if_true, Nat.cast_zero, zero_mul] using hzero
  · rw [pack_eq negative hm]
    exact (packed_counted hm).rounds_word hf negative

theorem pack_cases (hf : f.Proper) (negative : Bool) (significand : ℕ) (scale : ℤ) :
    f.pack negative significand scale = f.infinity negative ∨
      ∃ mag < f.topExponent * 2 ^ f.fractionBits,
        f.pack negative significand scale = f.withSign negative mag := by
  by_cases hm : significand = 0
  · refine .inr ⟨0, ?_, by rw [pack, if_pos hm]⟩
    exact Nat.mul_pos (Nat.zero_lt_of_lt hf.two_lt_topExponent) (Nat.two_pow_pos _)
  · rw [pack_eq negative hm]
    dsimp only
    split
    next => exact .inl rfl
    next hlt => exact .inr ⟨_, not_le.mp hlt, rfl⟩

theorem pack_unpack (hf : f.Proper) {word : ℕ} (hword : word < 2 * f.signBit) {negative : Bool}
    (h : f.unpack word = .finite negative significand scale) :
    f.pack negative significand scale = word := by
  have hvalue : (f.unpack word).value? = some (oriented negative (significand * 2 ^ scale)) := by
    rw [h]
    rfl
  obtain ⟨-, hmagnitude⟩ := value_of_word hvalue
  rw [isNegative_of_finite h] at hmagnitude
  have hexact := (pack_rounds hf negative significand scale).exact hf hvalue
  rcases pack_cases hf negative significand scale with hinfinite | ⟨mag, hmag, hpack⟩
  · rw [hinfinite, unpack_infinity] at hexact
    cases hexact
  · rw [hpack, value_withSign negative hmag, hmagnitude, Option.some_inj] at hexact
    have hsame := f.magnitudeValue_strictMono.injective (oriented_injective negative hexact)
    rw [hpack, hsame, ← isNegative_of_finite h, withSign_magnitude hword]

/-!
# What rounds to a word
-/

variable {word word' m m' : ℕ} {e e' : ℤ} {negative negative' : Bool} {y : ℚ}

/-- A number that is no nearer to another point than to the first is on its side of the middle. -/
theorem le_middle {v w : ℚ} {even : Prop} (hvw : v < w) (hnear : |y - v| ≤ |y - w|)
    (htie : |y - w| = |y - v| → even) : y ≤ (v + w) / 2 ∧ (y = (v + w) / 2 → even) := by
  constructor
  · by_contra hmore
    rw [abs_of_pos (a := y - v) (by linarith)] at hnear
    have hless : |y - w| < y - v := abs_lt.mpr ⟨by linarith, by linarith⟩
    linarith
  · rintro rfl
    apply htie
    rw [abs_of_neg (by linarith), abs_of_pos (by linarith)]
    ring

theorem middle_le {v w : ℚ} {even : Prop} (hwv : w < v) (hnear : |y - v| ≤ |y - w|)
    (htie : |y - w| = |y - v| → even) : (v + w) / 2 ≤ y ∧ (y = (v + w) / 2 → even) := by
  have hneg (a : ℚ) : |-y - -a| = |y - a| := by rw [neg_sub_neg, abs_sub_comm]
  obtain ⟨hle, heq⟩ : -y ≤ (-v + -w) / 2 ∧ (-y = (-v + -w) / 2 → even) := by
    apply le_middle (neg_lt_neg hwv)
    · rwa [hneg, hneg]
    · rwa [hneg, hneg]
  exact ⟨by linarith, fun h => heq (by linarith)⟩

/-- A word that a number rounds to is the nearest of all magnitudes, and even when another one is as
near. -/
theorem Rounds.side (hf : f.Proper) (h : f.unpack word = .finite negative m e)
    (hword : word < 2 * f.signBit) (hy : f.Rounds (oriented negative y) word) {mag : ℕ}
    (hmag : mag < f.topExponent * 2 ^ f.fractionBits)
    (hne : f.magnitudeValue mag ≠ m * 2 ^ e) :
    |y - m * 2 ^ e| ≤ |y - f.magnitudeValue mag| ∧
      (|y - f.magnitudeValue mag| = |y - m * 2 ^ e| → m % 2 = 0) := by
  obtain ⟨k, -, -, -, -, hmagnitude⟩ := finite_units h
  have hother := value_withSign negative hmag
  have heven : word % 2 = m % 2 := by
    rw [← withSign_magnitude hword, hmagnitude, withSign_even hf]
  cases hy with
  | infinite hinfinite => rw [h] at hinfinite; cases hinfinite
  | @finite v hvalue hrange hnearest htie hsign =>
      have hv : v = oriented negative (m * 2 ^ e) := by
        rw [h] at hvalue
        exact (Option.some.inj hvalue).symm
      have hnear := hnearest _ _ hother
      rw [hv, oriented_sub, oriented_sub, abs_oriented, abs_oriented] at hnear
      refine ⟨hnear, fun heq => ?_⟩
      rw [← heven]
      refine htie _ _ hother ?_ ?_
      · rw [hv]
        exact (oriented_injective negative).ne hne
      · rwa [hv, oriented_sub, oriented_sub, abs_oriented, abs_oriented]

theorem magnitude_mod_two (hf : f.Proper) (h : f.unpack word = .finite negative m e) :
    f.magnitude word % 2 = m % 2 := by
  obtain ⟨k, -, -, -, -, hmagnitude⟩ := finite_units h
  rw [hmagnitude]
  exact withSign_even hf false

/-- A number does not round to a word and to one of greater magnitude and the same sign. -/
theorem Rounds.not_magnitude_lt (hf : f.Proper) (h : f.unpack word = .finite negative m e)
    (h' : f.unpack word' = .finite negative m' e') (hword : word < 2 * f.signBit)
    (hword' : word' < 2 * f.signBit) (hy : f.Rounds (oriented negative y) word)
    (hy' : f.Rounds (oriented negative y) word') : ¬ f.magnitude word < f.magnitude word' := by
  intro hlt
  have hvalue := magnitudeValue_magnitude h
  have hvalue' := magnitudeValue_magnitude h'
  have hless := f.magnitudeValue_strictMono hlt
  obtain ⟨hnear, heven⟩ := hy.side hf h hword (magnitude_lt h')
    (by rw [← hvalue]; exact hless.ne')
  obtain ⟨hnear', heven'⟩ := hy'.side hf h' hword' (magnitude_lt h)
    (by rw [← hvalue']; exact hless.ne)
  rw [← hvalue] at hnear heven
  rw [← hvalue'] at hnear' heven'
  have htie := le_antisymm hnear hnear'
  have hparity := magnitude_mod_two hf h
  have hparity' := magnitude_mod_two hf h'
  rw [heven htie.symm] at hparity
  rw [heven' htie] at hparity'
  -- both are even, so another one lies between them and is nearer
  have hbetween : f.magnitude word + 1 < f.magnitude word' := by omega
  have hlow := f.magnitudeValue_strictMono (Nat.lt_succ_self (f.magnitude word))
  have hhigh := f.magnitudeValue_strictMono hbetween
  obtain ⟨hnext, -⟩ := hy.side hf h hword (hbetween.trans (magnitude_lt h'))
    (by rw [← hvalue]; exact hlow.ne')
  rw [← hvalue] at hnext
  obtain ⟨hmiddle, -⟩ := le_middle hlow hnext fun _ => trivial
  rw [abs_of_neg (a := y - f.magnitudeValue (f.magnitude word')) (by linarith)] at htie
  rcases abs_cases (y - f.magnitudeValue (f.magnitude word)) with ⟨habs, -⟩ | ⟨habs, -⟩ <;>
    linarith

theorem Rounds.unique (hf : f.Proper) (h : f.unpack word = .finite negative m e)
    (h' : f.unpack word' = .finite negative m' e') (hword : word < 2 * f.signBit)
    (hword' : word' < 2 * f.signBit) (hy : f.Rounds (oriented negative y) word)
    (hy' : f.Rounds (oriented negative y) word') : word = word' := by
  rw [← withSign_magnitude hword, ← withSign_magnitude hword', isNegative_of_finite h,
    isNegative_of_finite h']
  congr 1
  exact le_antisymm (not_lt.mp (hy'.not_magnitude_lt hf h' h hword' hword hy))
    (not_lt.mp (hy.not_magnitude_lt hf h h' hword hword' hy'))

end Format
end FloatingPoint
end Bytecode
