import Bytecode.Proofs.Heap.Elements
import Bytecode.Proofs.Text.ModifiedUtf8
import Mathlib.Algebra.BigOperators.Fin
import Mathlib.Tactic.Ring.RingNF

/-!
# Units as numbers

The hash of a list of units is the value of a polynomial, a unit is put together again from its two
bytes, and units that are all below 256 are the codes of the characters themselves.
-/

namespace Bytecode
namespace Text

/-!
# Hashes
-/

/-- The units as digits in base 31, the last one with weight 1. -/
def weighted (units : List UInt16) : Int :=
  ∑ k : Fin units.length, ((units.get k).toNat : Int) * 31 ^ (units.length - 1 - k)

theorem weighted_cons (u : UInt16) (units : List UInt16) :
    weighted (u :: units) = u.toNat * 31 ^ units.length + weighted units := by
  have hfirst : weighted (u :: units) = u.toNat * 31 ^ units.length +
      ∑ k : Fin units.length, ((units.get k).toNat : Int) * 31 ^ (units.length - (k + 1)) :=
    Fin.sum_univ_succ _
  rw [hfirst, weighted]
  congr 1
  apply Finset.sum_congr rfl
  intro k _
  congr 2
  omega

theorem toInt32_eq_ofInt (u : UInt16) : u.toUInt32.toInt32 = Int32.ofInt u.toNat := by
  apply Int32.toInt_inj.mp
  rw [Int32.toInt_ofInt]
  exact toInt_eq_bmod u.toUInt32.toInt32

theorem foldl_eq_ofInt (units : List UInt16) (n : Int) :
    units.foldl (fun h u => 31 * h + u.toUInt32.toInt32) (Int32.ofInt n) =
      Int32.ofInt (n * 31 ^ units.length + weighted units) := by
  induction units generalizing n with
  | nil => simp [weighted]
  | cons u units ih =>
      have hstep : 31 * Int32.ofInt n + u.toUInt32.toInt32 = Int32.ofInt (31 * n + u.toNat) := by
        rw [toInt32_eq_ofInt, Int32.ofInt_add, Int32.ofInt_mul]
        rfl
      rw [List.foldl_cons, hstep, ih, weighted_cons, List.length_cons]
      ring_nf

theorem toInt_unitHash (units : List UInt16) :
    (unitHash units).toInt = (weighted units).bmod (2 ^ 32) := by
  have hhash : unitHash units = Int32.ofInt (0 * 31 ^ units.length + weighted units) :=
    foldl_eq_ofInt units 0
  rw [hhash, Int32.toInt_ofInt, zero_mul, zero_add]
  rfl

/-!
# Units in two bytes
-/

theorem unitHalves_eq_map (u : UInt16) :
    Machine.unitHalves u = [u.toNat / 256, u.toNat % 256].map UInt8.ofNat := by
  have hhigh : (u >>> 8).toUInt8 = UInt8.ofNat (u.toNat / 2 ^ 8) :=
    upper_bits u (k := 8) (by decide)
  have hlow : u.toUInt8 = UInt8.ofNat (u.toNat % 256) := by
    apply UInt8.toNat_inj.mp
    simp
  unfold Machine.unitHalves
  rw [hhigh, hlow]
  rfl

theorem unitsOfHalves_cons (u : UInt16) (rest : List UInt8) :
    Machine.unitsOfHalves (Machine.unitHalves u ++ rest) = u :: Machine.unitsOfHalves rest := by
  have hu := u.toNat_lt
  have hbyte {n : Nat} (hn : n < 256) : (UInt8.ofNat n).toUInt16 = UInt16.ofNat n := by
    apply UInt16.toNat_inj.mp
    rw [UInt8.toNat_toUInt16, UInt8.toNat_ofNat', UInt16.toNat_ofNat']
    omega
  have hhigh := hbyte (show u.toNat / 256 < 256 by omega)
  have hlow := hbyte (Nat.mod_lt u.toNat (show 0 < 256 by decide))
  rw [unitHalves_eq_map]
  show ((UInt8.ofNat (u.toNat / 256)).toUInt16 <<< 8 ||| (UInt8.ofNat (u.toNat % 256)).toUInt16) ::
    Machine.unitsOfHalves rest = _
  rw [hhigh, hlow]
  exact congrArg (· :: _) (unit_of_parts u (k := 8) (by decide))

theorem unitsOfHalves_flatMap (units : List UInt16) :
    Machine.unitsOfHalves (units.flatMap Machine.unitHalves) = units := by
  induction units with
  | nil => rfl
  | cons u units ih => rw [List.flatMap_cons, unitsOfHalves_cons, ih]

/-!
# Units of one byte
-/

def IsLatin (text : String) : Prop :=
  ∀ u ∈ toUnits text, u.toNat < 256

instance (text : String) : Decidable (IsLatin text) :=
  List.decidableBAll (fun u : UInt16 => u.toNat < 256) (toUnits text)

theorem charUnits_of_lt {c : Char} (h : ∀ u ∈ charUnits c, u.toNat < 256) :
    charUnits c = [UInt16.ofNat c.toNat] ∧ c.toNat < 256 := by
  have hvalid := toNat_lt_or_gt c
  unfold charUnits at h ⊢
  split at h
  next hbasic =>
      rw [if_pos hbasic]
      have hunit := h _ List.mem_cons_self
      rw [Nat.toUInt16_eq, UInt16.toNat_ofNat'] at hunit
      exact ⟨rfl, by omega⟩
  next hlarge =>
      -- a character of two units starts with a high surrogate
      have hunit := h _ List.mem_cons_self
      rw [Nat.toUInt16_eq, UInt16.toNat_ofNat'] at hunit
      omega

theorem IsLatin.chars {text : String} (h : IsLatin text) :
    toUnits text = text.toList.map (fun c => UInt16.ofNat c.toNat) ∧
      ∀ c ∈ text.toList, c.toNat < 256 := by
  unfold IsLatin toUnits at h
  unfold toUnits
  revert h
  induction text.toList with
  | nil => exact fun _ => ⟨rfl, nofun⟩
  | cons c chars ih =>
      intro h
      rw [List.flatMap_cons, List.forall_mem_append] at h
      rcases charUnits_of_lt h.1 with ⟨hunits, hsmall⟩
      rcases ih h.2 with ⟨hrest, hsmaller⟩
      constructor
      · rw [List.flatMap_cons, hunits, hrest]
        rfl
      · exact List.forall_mem_cons.mpr ⟨hsmall, hsmaller⟩

end Text
end Bytecode
