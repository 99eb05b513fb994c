import Bytecode.Text.ModifiedUtf8
import Mathlib.Algebra.Group.Nat.Defs

/-!
# Modified UTF-8 read back

Decoding undoes encoding.  Units are read back one at a time from the bytes in front of an
arbitrary tail, and characters one at a time from the units in front of an arbitrary tail, so both
facts go through whole texts by induction.
-/

namespace Bytecode
namespace Text

/-!
# Parts of a unit

Each byte of a unit holds some of its bits.  All parts are written as numbers first.
-/

theorem shiftLeft_or_mod (n k : Nat) : (n >>> k) <<< k ||| n % 2 ^ k = n := by
  have hlow : n % 2 ^ k < 2 ^ k := Nat.mod_lt n (Nat.two_pow_pos k)
  rw [← Nat.shiftLeft_add_eq_or_of_lt hlow, Nat.shiftLeft_eq, Nat.shiftRight_eq_div_pow]
  exact Nat.div_add_mod' n (2 ^ k)

theorem low_bits (u : UInt16) : u.toUInt8 &&& 0x3F = UInt8.ofNat (u.toNat % 64) := by
  apply UInt8.toNat_inj.mp
  have hmask : u.toNat % 256 &&& 0x3F = u.toNat % 256 % 64 :=
    Nat.and_two_pow_sub_one_eq_mod (u.toNat % 256) 6
  have hlow : u.toNat % 64 < 256 := by omega
  simp [hmask, Nat.mod_mod_of_dvd u.toNat (show 64 ∣ 256 by decide), Nat.mod_eq_of_lt hlow]

theorem middle_bits (u : UInt16) :
    (u >>> 6).toUInt8 &&& 0x3F = UInt8.ofNat (u.toNat / 64 % 64) := by
  rw [low_bits]
  simp [Nat.shiftRight_eq_div_pow]

theorem upper_bits (u : UInt16) {k : Nat} (hk : k < 16) :
    (u >>> UInt16.ofNat k).toUInt8 = UInt8.ofNat (u.toNat / 2 ^ k) := by
  apply UInt8.toNat_inj.mp
  have hmod : (UInt16.ofNat k).toNat % 16 = k := by
    rw [UInt16.toNat_ofNat']
    omega
  rw [UInt16.toNat_toUInt8, UInt16.toNat_shiftRight, hmod, Nat.shiftRight_eq_div_pow,
    UInt8.toNat_ofNat']

theorem unit_of_parts (u : UInt16) {k : Nat} (hk : k < 16) :
    (UInt16.ofNat (u.toNat / 2 ^ k) <<< UInt16.ofNat k) ||| UInt16.ofNat (u.toNat % 2 ^ k) = u := by
  apply UInt16.toNat_inj.mp
  have hu := u.toNat_lt
  have hmod : (UInt16.ofNat k).toNat % 16 = k := by
    rw [UInt16.toNat_ofNat']
    omega
  have hhigh : u.toNat / 2 ^ k < 2 ^ 16 := Nat.lt_of_le_of_lt (Nat.div_le_self _ _) hu
  have hlow : u.toNat % 2 ^ k < 2 ^ 16 := Nat.lt_of_le_of_lt (Nat.mod_le _ _) hu
  have hshift : (u.toNat / 2 ^ k) <<< k < 2 ^ 16 := by
    rw [Nat.shiftLeft_eq]
    exact Nat.lt_of_le_of_lt (Nat.div_mul_le_self _ _) hu
  have hparts := shiftLeft_or_mod u.toNat k
  rw [Nat.shiftRight_eq_div_pow] at hparts
  rw [UInt16.toNat_or, UInt16.toNat_shiftLeft, hmod, UInt16.toNat_ofNat', UInt16.toNat_ofNat',
    Nat.mod_eq_of_lt hhigh, Nat.mod_eq_of_lt hshift, Nat.mod_eq_of_lt hlow, hparts]

theorem unit_of_three_parts (u : UInt16) :
    (UInt16.ofNat (u.toNat / 2 ^ 12) <<< 12) ||| (UInt16.ofNat (u.toNat / 64 % 64) <<< 6) |||
      UInt16.ofNat (u.toNat % 64) = u := by
  have hu := u.toNat_lt
  have hnat : (UInt16.ofNat (u.toNat / 64)).toNat = u.toNat / 64 := by
    simp
    omega
  have hupper : (UInt16.ofNat (u.toNat / 2 ^ 12) <<< 6) ||| UInt16.ofNat (u.toNat / 64 % 64) =
      UInt16.ofNat (u.toNat / 64) := by
    have hparts := unit_of_parts (UInt16.ofNat (u.toNat / 64)) (k := 6) (by decide)
    rw [hnat, Nat.div_div_eq_div_mul] at hparts
    exact hparts
  have hshift : UInt16.ofNat (u.toNat / 2 ^ 12) <<< 12 =
      UInt16.ofNat (u.toNat / 2 ^ 12) <<< 6 <<< 6 :=
    UInt16.shiftLeft_add (a := UInt16.ofNat (u.toNat / 2 ^ 12)) (b := 6) (c := 6) (by decide)
      (by decide) (by decide)
  rw [hshift, ← UInt16.shiftLeft_or, hupper]
  exact unit_of_parts u (k := 6) (by decide)

/-!
# Bytes of one unit

The lead byte tells the three forms apart.
-/

theorem lead_one : ∀ n < 128, UInt8.ofNat n &&& 0x80 = 0 := by
  decide

theorem lead_two :
    ∀ n < 32, (UInt8.ofNat n ||| 0xC0) &&& 0x80 ≠ 0 ∧ (UInt8.ofNat n ||| 0xC0) &&& 0xE0 = 0xC0 ∧
      (UInt8.ofNat n ||| 0xC0).toUInt16 &&& 0x1F = UInt16.ofNat n := by
  decide

theorem lead_three :
    ∀ n < 16, (UInt8.ofNat n ||| 0xE0) &&& 0x80 ≠ 0 ∧ (UInt8.ofNat n ||| 0xE0) &&& 0xE0 ≠ 0xC0 ∧
      (UInt8.ofNat n ||| 0xE0) &&& 0xF0 = 0xE0 ∧
        (UInt8.ofNat n ||| 0xE0).toUInt16 &&& 0x0F = UInt16.ofNat n := by
  decide

theorem continuation :
    ∀ n < 64, (UInt8.ofNat n ||| 0x80).toUInt16 &&& 0x3F = UInt16.ofNat n := by
  decide

theorem unitsOfBytes_one {a : UInt8} (h : a &&& 0x80 = 0) (position : Nat) (rest : List UInt8) :
    unitsOfBytes position (a :: rest) =
      (unitsOfBytes (position + 1) rest).map (a.toUInt16 :: ·) := by
  match rest with
  | [] => simp [unitsOfBytes, h, Except.map]
  | [b] => simp [unitsOfBytes, h]
  | b :: c :: rest => simp [unitsOfBytes, h]

theorem unitsOfBytes_two {a : UInt8} (h : a &&& 0x80 ≠ 0) (h' : a &&& 0xE0 = 0xC0) (b : UInt8)
    (position : Nat) (rest : List UInt8) :
    unitsOfBytes position (a :: b :: rest) =
      (unitsOfBytes (position + 2) rest).map (unitOfTwo a b :: ·) := by
  cases rest with
  | nil => simp [unitsOfBytes, h, h', Except.map]
  | cons c rest => simp [unitsOfBytes, h, h']

theorem unitsOfBytes_three {a : UInt8} (h : a &&& 0x80 ≠ 0) (h' : a &&& 0xE0 ≠ 0xC0)
    (h'' : a &&& 0xF0 = 0xE0) (b c : UInt8) (position : Nat) (rest : List UInt8) :
    unitsOfBytes position (a :: b :: c :: rest) =
      (unitsOfBytes (position + 3) rest).map (unitOfThree a b c :: ·) := by
  simp [unitsOfBytes, h, h', h'']

theorem unit_of_one {u : UInt16} (hsmall : u.toNat < 128) :
    u.toUInt8 &&& 0x80 = 0 ∧ u.toUInt8.toUInt16 = u := by
  have hbyte : u.toUInt8 = UInt8.ofNat u.toNat := rfl
  constructor
  · rw [hbyte]
    exact lead_one u.toNat hsmall
  · apply UInt16.toNat_inj.mp
    simp
    omega

theorem unitOfTwo_parts {u : UInt16} (hsmall : u.toNat < 0x800) :
    unitOfTwo (UInt8.ofNat (u.toNat / 2 ^ 6) ||| 0xC0) (UInt8.ofNat (u.toNat % 64) ||| 0x80) =
      u := by
  have hhigh : u.toNat / 2 ^ 6 < 32 := by omega
  have hlow : u.toNat % 64 < 64 := by omega
  unfold unitOfTwo
  rw [(lead_two _ hhigh).2.2, continuation _ hlow]
  exact unit_of_parts u (k := 6) (by decide)

theorem unitOfThree_parts (u : UInt16) :
    unitOfThree (UInt8.ofNat (u.toNat / 2 ^ 12) ||| 0xE0)
      (UInt8.ofNat (u.toNat / 64 % 64) ||| 0x80) (UInt8.ofNat (u.toNat % 64) ||| 0x80) = u := by
  have hu := u.toNat_lt
  have hhigh : u.toNat / 2 ^ 12 < 16 := by omega
  have hmiddle : u.toNat / 64 % 64 < 64 := by omega
  have hlow : u.toNat % 64 < 64 := by omega
  unfold unitOfThree
  rw [(lead_three _ hhigh).2.2.2, continuation _ hmiddle, continuation _ hlow]
  exact unit_of_three_parts u

theorem unitsOfBytes_unitBytes (u : UInt16) (position : Nat) (rest : List UInt8) :
    unitsOfBytes position (unitBytes u ++ rest) =
      (unitsOfBytes (position + (unitBytes u).length) rest).map (u :: ·) := by
  have hu := u.toNat_lt
  unfold unitBytes
  split
  next hone =>
      simp only [Bool.and_eq_true, decide_eq_true_eq, UInt16.lt_iff_toNat_lt] at hone
      rcases unit_of_one hone.2 with ⟨hlead, hunit⟩
      simp only [List.cons_append, List.nil_append]
      rw [unitsOfBytes_one hlead, hunit]
      rfl
  next =>
      split
      next htwo =>
          have hsmall : u.toNat < 0x800 := UInt16.lt_iff_toNat_lt.mp htwo
          have hupper : (u >>> 6).toUInt8 = UInt8.ofNat (u.toNat / 2 ^ 6) :=
            upper_bits u (k := 6) (by decide)
          rcases lead_two (u.toNat / 2 ^ 6) (by omega) with ⟨hmark, hlead, -⟩
          simp only [List.cons_append, List.nil_append]
          rw [hupper, low_bits, unitsOfBytes_two hmark hlead, unitOfTwo_parts hsmall]
          simp only [List.length_cons, List.length_nil]
      next =>
          have hupper : (u >>> 12).toUInt8 = UInt8.ofNat (u.toNat / 2 ^ 12) :=
            upper_bits u (k := 12) (by decide)
          rcases lead_three (u.toNat / 2 ^ 12) (by omega) with ⟨hmark, hnot, hlead, -⟩
          simp only [List.cons_append, List.nil_append]
          rw [hupper, middle_bits, low_bits, unitsOfBytes_three hmark hnot hlead,
            unitOfThree_parts]
          simp only [List.length_cons, List.length_nil]

theorem unitsOfBytes_bytesOfUnits (units : List UInt16) (position : Nat) :
    unitsOfBytes position (bytesOfUnits units) = .ok units := by
  induction units generalizing position with
  | nil => simp [bytesOfUnits, unitsOfBytes]
  | cons u units ih =>
      have hrest := ih (position + (unitBytes u).length)
      unfold bytesOfUnits at hrest ⊢
      rw [List.flatMap_cons, unitsOfBytes_unitBytes, hrest]
      rfl

/-!
# Units of one character
-/

theorem toNat_lt_or_gt (c : Char) : c.toNat < 0xD800 ∨ 0xDFFF < c.toNat ∧ c.toNat < 0x110000 :=
  c.valid

theorem charsOfUnits_single {u : UInt16} (hhigh : isHighSurrogate u = false)
    (hlow : isLowSurrogate u = false) (rest : List UInt16) :
    charsOfUnits (u :: rest) = Char.ofNat u.toNat :: charsOfUnits rest := by
  cases rest with
  | nil => simp [charsOfUnits, hhigh, hlow]
  | cons v rest => simp [charsOfUnits, hhigh, hlow]

theorem charsOfUnits_pair {u v : UInt16} (hhigh : isHighSurrogate u = true)
    (hlow : isLowSurrogate v = true) (rest : List UInt16) :
    charsOfUnits (u :: v :: rest) = joinSurrogates u v :: charsOfUnits rest := by
  simp [charsOfUnits, hhigh, hlow]

theorem unit_of_basic {c : Char} (hbasic : c.toNat < 0x10000) :
    c.toNat.toUInt16.toNat = c.toNat ∧ isHighSurrogate c.toNat.toUInt16 = false ∧
      isLowSurrogate c.toNat.toUInt16 = false := by
  have hvalid := toNat_lt_or_gt c
  have hnat : c.toNat.toUInt16.toNat = c.toNat := by
    simp
    omega
  refine ⟨hnat, ?_, ?_⟩
  · simp [isHighSurrogate, UInt16.le_iff_toNat_le, UInt16.lt_iff_toNat_lt, hnat]
    omega
  · simp [isLowSurrogate, UInt16.le_iff_toNat_le, UInt16.lt_iff_toNat_lt, hnat]
    omega

theorem isHighSurrogate_add {n : Nat} (h : n < 0x400) :
    (0xD800 + n).toUInt16.toNat = 0xD800 + n ∧ isHighSurrogate (0xD800 + n).toUInt16 = true := by
  have hnat : (0xD800 + n).toUInt16.toNat = 0xD800 + n := by
    simp
    omega
  refine ⟨hnat, ?_⟩
  simp only [isHighSurrogate, UInt16.le_iff_toNat_le, UInt16.lt_iff_toNat_lt, hnat,
    Bool.and_eq_true, decide_eq_true_eq]
  constructor
  · exact Nat.le_add_right _ _
  · show _ < 0xDC00
    omega

theorem isLowSurrogate_add {n : Nat} (h : n < 0x400) :
    (0xDC00 + n).toUInt16.toNat = 0xDC00 + n ∧ isLowSurrogate (0xDC00 + n).toUInt16 = true := by
  have hnat : (0xDC00 + n).toUInt16.toNat = 0xDC00 + n := by
    simp
    omega
  refine ⟨hnat, ?_⟩
  simp only [isLowSurrogate, UInt16.le_iff_toNat_le, UInt16.lt_iff_toNat_lt, hnat,
    Bool.and_eq_true, decide_eq_true_eq]
  constructor
  · exact Nat.le_add_right _ _
  · show _ < 0xE000
    omega

theorem charsOfUnits_charUnits (c : Char) (rest : List UInt16) :
    charsOfUnits (charUnits c ++ rest) = c :: charsOfUnits rest := by
  have hvalid := toNat_lt_or_gt c
  unfold charUnits
  split
  next hbasic =>
      rcases unit_of_basic hbasic with ⟨hnat, hhigh, hlow⟩
      simp only [List.cons_append, List.nil_append]
      rw [charsOfUnits_single hhigh hlow, hnat, Char.ofNat_toNat]
  next hlarge =>
      have hupper : (c.toNat - 0x10000) / 0x400 < 0x400 := by omega
      rcases isHighSurrogate_add hupper with ⟨hfirst, hhigh⟩
      rcases isLowSurrogate_add (Nat.mod_lt (c.toNat - 0x10000) (by decide)) with ⟨hsecond, hlow⟩
      have hjoin : 0x10000 + (0xD800 + (c.toNat - 0x10000) / 0x400 - 0xD800) * 0x400 +
          (0xDC00 + (c.toNat - 0x10000) % 0x400 - 0xDC00) = c.toNat := by
        omega
      simp only [List.cons_append, List.nil_append]
      rw [charsOfUnits_pair hhigh hlow]
      unfold joinSurrogates
      rw [hfirst, hsecond, hjoin, Char.ofNat_toNat]

theorem ofUnits_toUnits (s : String) : ofUnits (toUnits s) = s := by
  have hchars (cs : List Char) : charsOfUnits (cs.flatMap charUnits) = cs := by
    induction cs with
    | nil => rfl
    | cons c cs ih => rw [List.flatMap_cons, charsOfUnits_charUnits, ih]
  unfold ofUnits toUnits
  rw [hchars, String.ofList_toList]

theorem ofModifiedUtf8_toModifiedUtf8 (s : String) :
    ofModifiedUtf8 (toModifiedUtf8 s) = .ok s := by
  unfold ofModifiedUtf8 toModifiedUtf8
  rw [unitsOfBytes_bytesOfUnits]
  exact congrArg Except.ok (ofUnits_toUnits s)

/-!
# Units of no character

Lists of units that are not the units of a text are read as well.  What they are read as is said
here by the units of each character alone.
-/

/-- The characters of a list of units, where a unit that starts no character is replaced. -/
inductive Spells : List UInt16 → List Char → Prop where
  | nil : Spells [] []
  | char (c : Char) {units : List UInt16} {chars : List Char} :
      Spells units chars → Spells (charUnits c ++ units) (c :: chars)
  | unpaired {u : UInt16} {units : List UInt16} {chars : List Char} :
      (∀ c rest, u :: units ≠ charUnits c ++ rest) → Spells units chars →
      Spells (u :: units) (replacement :: chars)

theorem toNat_ofNat {n : Nat} (h : n < 0xD800 ∨ 0xDFFF < n ∧ n < 0x110000) :
    (Char.ofNat n).toNat = n := by
  have hvalid : n.isValidChar := h
  rw [Char.ofNat, dif_pos hvalid]
  rfl

theorem charUnits_ofNat {u : UInt16} (hhigh : isHighSurrogate u = false)
    (hlow : isLowSurrogate u = false) : charUnits (Char.ofNat u.toNat) = [u] := by
  have hu := u.toNat_lt
  simp only [isHighSurrogate, isLowSurrogate, Bool.and_eq_false_iff, decide_eq_false_iff_not,
    UInt16.le_iff_toNat_le, UInt16.lt_iff_toNat_lt, UInt16.reduceToNat] at hhigh hlow
  have hnat : (Char.ofNat u.toNat).toNat = u.toNat := toNat_ofNat (by omega)
  unfold charUnits
  rw [hnat, if_pos hu]
  exact congrArg (fun w => [w]) (UInt16.ofNat_toNat)

theorem charUnits_joinSurrogates {u v : UInt16} (hhigh : isHighSurrogate u = true)
    (hlow : isLowSurrogate v = true) : charUnits (joinSurrogates u v) = [u, v] := by
  simp only [isHighSurrogate, isLowSurrogate, Bool.and_eq_true, decide_eq_true_eq,
    UInt16.le_iff_toNat_le, UInt16.lt_iff_toNat_lt, UInt16.reduceToNat] at hhigh hlow
  have hnat : (joinSurrogates u v).toNat =
      0x10000 + (u.toNat - 0xD800) * 0x400 + (v.toNat - 0xDC00) := toNat_ofNat (by omega)
  have hfirst : 0xD800 + ((joinSurrogates u v).toNat - 0x10000) / 0x400 = u.toNat := by omega
  have hsecond : 0xDC00 + ((joinSurrogates u v).toNat - 0x10000) % 0x400 = v.toNat := by omega
  unfold charUnits
  rw [if_neg (by omega)]
  simp only [hfirst, hsecond, Nat.toUInt16_eq, UInt16.ofNat_toNat]

theorem charsOfUnits_unpaired {u : UInt16} {units : List UInt16}
    (h : ∀ c rest, u :: units ≠ charUnits c ++ rest) :
    charsOfUnits (u :: units) = replacement :: charsOfUnits units := by
  cases hhigh : isHighSurrogate u with
  | false =>
      cases hlow : isLowSurrogate u with
      | false =>
          have hchar := charUnits_ofNat hhigh hlow
          exact absurd (by rw [hchar]; rfl) (h (Char.ofNat u.toNat) units)
      | true => cases units <;> simp [charsOfUnits, hhigh, hlow]
  | true =>
      cases units with
      | nil => simp [charsOfUnits, hhigh]
      | cons v rest =>
          cases hlow : isLowSurrogate v with
          | false => simp [charsOfUnits, hhigh, hlow]
          | true =>
              have hchar := charUnits_joinSurrogates hhigh hlow
              exact absurd (by rw [hchar]; rfl) (h (joinSurrogates u v) rest)

theorem charUnits_ne_nil (c : Char) : charUnits c ≠ [] := by
  unfold charUnits
  split
  · exact List.cons_ne_nil _ _
  · exact List.cons_ne_nil _ _

theorem spells_charsOfUnits (units : List UInt16) : Spells units (charsOfUnits units) := by
  -- a character takes one unit or two, so all shorter lists are needed
  induction hlength : units.length using Nat.strongRecOn generalizing units with
  | ind length ih =>
      cases units with
      | nil => exact .nil
      | cons u units =>
          by_cases hstarts : ∃ c rest, u :: units = charUnits c ++ rest
          · rcases hstarts with ⟨c, rest, hunits⟩
            have hshorter : rest.length < length := by
              have hpositive := List.length_pos_iff.mpr (charUnits_ne_nil c)
              rw [← hlength, hunits, List.length_append]
              omega
            rw [hunits, charsOfUnits_charUnits]
            exact .char c (ih rest.length hshorter rest rfl)
          · have hunpaired : ∀ c rest, u :: units ≠ charUnits c ++ rest :=
              fun c rest hunits => hstarts ⟨c, rest, hunits⟩
            rw [charsOfUnits_unpaired hunpaired]
            exact .unpaired hunpaired (ih units.length (by simp [← hlength]) units rfl)

theorem spells_iff {units : List UInt16} {chars : List Char} :
    Spells units chars ↔ chars = charsOfUnits units := by
  constructor
  · intro h
    induction h with
    | nil => rfl
    | char c _ ih => rw [charsOfUnits_charUnits, ← ih]
    | unpaired hunpaired _ ih => rw [charsOfUnits_unpaired hunpaired, ← ih]
  · intro h
    rw [h]
    exact spells_charsOfUnits units

/-- Every list of units is read back from its bytes, and every text from the bytes of its units. -/
theorem ofModifiedUtf8_bytesOfUnits :
    (∀ units, ofModifiedUtf8 (bytesOfUnits units) = .ok (ofUnits units) ∧
      ∀ chars, Spells units chars ↔ chars = (ofUnits units).toList) ∧
    ∀ s, ofModifiedUtf8 (bytesOfUnits (toUnits s)) = .ok s := by
  constructor
  · intro units
    constructor
    · unfold ofModifiedUtf8
      rw [unitsOfBytes_bytesOfUnits]
      rfl
    · intro chars
      unfold ofUnits
      rw [String.toList_ofList]
      exact spells_iff
  · exact ofModifiedUtf8_toModifiedUtf8

-- a lone low half, the unit zero, a pair and a lone high half
example : ofModifiedUtf8 (bytesOfUnits [0xDC01, 0, 0xD83D, 0xDE00, 0xD83D]) =
    .ok (String.ofList [replacement, '\x00', '😀', replacement]) :=
  rfl

end Text
end Bytecode
