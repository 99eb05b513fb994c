import Bytecode.Frame.Locals
import Mathlib.Data.Nat.SuccPred

/-!
# Local variables slot by slot

A value takes one slot, or two if it is wide, the high half first.  It is written where there are
places for all its slots, which then hold them, and it is read where all its slots stand.
-/

namespace Bytecode

/-!
# Values and their slots
-/

namespace Slot

theorem toBitVec_high (number : Int64) :
    (high number).toBitVec = number.toBitVec.extractLsb' 32 32 := by
  ext i hi
  have hinside : ¬ 64 ≤ i := by omega
  have hbound : 32 + i < 64 := by omega
  simp [high, hinside, hbound, BitVec.getElem_signExtend, BitVec.getElem_sshiftRight]

theorem toBitVec_low (number : Int64) :
    (low number).toBitVec = number.toBitVec.extractLsb' 0 32 := by
  ext i hi
  have hbound : i < 64 := by omega
  simp [low, hbound, BitVec.getElem_signExtend]

theorem toBitVec_join (upper lower : Int32) :
    (join upper lower).toBitVec = upper.toBitVec ++ lower.toBitVec := by
  ext i hi
  refine Eq.trans ?_ (BitVec.getElem_append (x := upper.toBitVec) (y := lower.toBitVec) hi).symm
  by_cases hlow : i < 32
  · simp [join, hlow]
  · have hplace : i - 32 < 32 := by omega
    have hinside : 32 ≤ i := by omega
    simp [join, hlow, hplace, hinside, BitVec.getElem_signExtend]

theorem join_high_low (number : Int64) : join (high number) (low number) = number := by
  apply Int64.toBitVec_inj.mp
  rw [toBitVec_join, toBitVec_high, toBitVec_low]
  exact (BitVec.extractLsb'_append_extractLsb'_eq_extractLsb' rfl).trans BitVec.extractLsb'_eq_self

theorem high_join (upper lower : Int32) : high (join upper lower) = upper := by
  apply Int32.toBitVec_inj.mp
  rw [toBitVec_high, toBitVec_join]
  exact BitVec.extractLsb'_append_eq_left

theorem low_join (upper lower : Int32) : low (join upper lower) = lower := by
  apply Int32.toBitVec_inj.mp
  rw [toBitVec_low, toBitVec_join]
  exact BitVec.extractLsb'_append_eq_right

end Slot

theorem Value.length_slots (value : Value) : value.slots.length = value.kind.slots := by
  cases value <;> rfl

theorem Kind.slots_pos (kind : Kind) : 0 < kind.slots := by
  cases kind <;> decide

namespace Locals

variable {l l' : Locals} {index place : Nat} {value : Value}

/-!
# Writing
-/

def patch (l : Locals) (index : Nat) : List Slot → Locals
  | [] => l
  | slot :: rest => patch ⟨l.slots.setIfInBounds index slot⟩ (index + 1) rest

theorem size_patch (l : Locals) (index : Nat) (slots : List Slot) :
    (l.patch index slots).size = l.size := by
  induction slots generalizing l index with
  | nil => rfl
  | cons slot rest ih =>
      rw [patch, ih]
      exact Array.size_setIfInBounds

theorem getElem?_patch {slots : List Slot} (h : index + slots.length ≤ l.size) (place : Nat) :
    (l.patch index slots).slots[place]? =
      (if index ≤ place then slots[place - index]? else none).or l.slots[place]? := by
  induction slots generalizing l index with
  | nil => simp [patch]
  | cons slot rest ih =>
      rw [List.length_cons] at h
      have hplaces : index + 1 + rest.length ≤
          (Locals.mk (l.slots.setIfInBounds index slot)).size := by
        rw [size, Array.size_setIfInBounds]
        exact Nat.add_right_comm index rest.length 1 ▸ h
      rw [patch, ih hplaces]
      rcases Nat.lt_trichotomy place index with hbefore | rfl | hbehind
      · rw [if_neg (by omega), if_neg (by omega),
          Array.getElem?_setIfInBounds_ne (Nat.ne_of_gt hbefore)]
      · have hplace : place < l.slots.size := by
          unfold size at h
          omega
        rw [if_neg (by omega), if_pos (Nat.le_refl place), Nat.sub_self,
          Array.getElem?_setIfInBounds_self_of_lt hplace]
        rfl
      · have hnext : place - index = place - (index + 1) + 1 := by omega
        rw [if_pos (by omega), if_pos (by omega),
          Array.getElem?_setIfInBounds_ne (Nat.ne_of_lt hbehind), hnext, List.getElem?_cons_succ]

theorem set_eq (l : Locals) (index : Nat) (slot : Slot) :
    l.set index slot =
      if index < l.size then .ok (l.patch index [slot]) else .error (l.outOfRange index) := by
  unfold set size
  by_cases hlt : index < l.slots.size
  · rw [dif_pos hlt, if_pos hlt, patch, patch, Array.setIfInBounds_def, dif_pos hlt]
  · rw [dif_neg hlt, if_neg hlt]

theorem setLong_eq (l : Locals) (index : Nat) (number : Int64) :
    l.setLong index number =
      if index + 1 < l.size then
        .ok (l.patch index [.int (Slot.high number), .int (Slot.low number)])
      else .error (l.outOfRange (index + 1)) := by
  unfold setLong
  by_cases hlt : index + 1 < l.size
  · rw [if_neg (Nat.not_le.mpr hlt), if_pos hlt]
    unfold setInt
    rw [set_eq, if_pos (Nat.lt_of_succ_lt hlt)]
    show set (l.patch index [.int (Slot.high number)]) (index + 1) (.int (Slot.low number)) = _
    rw [set_eq, size_patch, if_pos hlt]
    simp only [patch]
  · rw [if_pos (Nat.le_of_not_lt hlt), if_neg hlt]

theorem write_eq (l : Locals) (index : Nat) (value : Value) :
    l.write index value =
      if index + value.kind.slots ≤ l.size then .ok (l.patch index value.slots)
      else .error (l.outOfRange (index + value.kind.slots - 1)) := by
  cases value with
  | int number => exact set_eq l index (.int number)
  | long number => exact setLong_eq l index number
  | float word => exact set_eq l index (.int word.toInt32)
  | double word => exact setLong_eq l index word.toInt64
  | reference target => exact set_eq l index (.reference target)

theorem write_eq_ok :
    l.write index value = .ok l' ↔
      index + value.kind.slots ≤ l.size ∧ l.patch index value.slots = l' := by
  rw [write_eq]
  split
  next hfits => simp [hfits]
  next hexceeds => simp [hexceeds]

theorem getElem?_of_write (h : l.write index value = .ok l') (place : Nat) :
    l'.slots[place]? =
      (if index ≤ place then value.slots[place - index]? else none).or l.slots[place]? := by
  obtain ⟨hfits, rfl⟩ := write_eq_ok.mp h
  exact getElem?_patch (value.length_slots.symm ▸ hfits) place

theorem getElem?_of_write_outside (h : l.write index value = .ok l')
    (hplace : place < index ∨ index + value.kind.slots ≤ place) :
    l'.slots[place]? = l.slots[place]? := by
  rw [getElem?_of_write h]
  split
  next hle =>
      have hlength : value.slots.length ≤ place - index := by
        rw [value.length_slots]
        omega
      rw [List.getElem?_eq_none hlength]
      rfl
  next => rfl

/-!
# Reading
-/

section

variable {α β : Type} {x : Except Fault α} {f : α → β}

theorem map_eq_ok {b : β} : f <$> x = .ok b ↔ ∃ a, x = .ok a ∧ f a = b := by
  cases x with
  | ok a => simp [Functor.map, Except.map]
  | error fault => simp [Functor.map, Except.map]

theorem map_eq_error {fault : Fault} : f <$> x = .error fault ↔ x = .error fault := by
  cases x with
  | ok a => simp [Functor.map, Except.map]
  | error fault => simp [Functor.map, Except.map]

end

theorem getInt_eq (l : Locals) (index : Nat) :
    l.getInt index =
      match l.slots[index]? with
      | some (.int number) => .ok number
      | some (.reference _) => .error (.illegal .primitiveExpected)
      | none => .error (l.outOfRange index) := by
  unfold getInt get
  split
  next slot hslot =>
      rw [hslot]
      cases slot with
      | int number => rfl
      | reference target => rfl
  next hslot =>
      rw [hslot]
      rfl

theorem getInt_eq_ok {number : Int32} :
    l.getInt index = .ok number ↔ l.slots[index]? = some (.int number) := by
  rw [getInt_eq]
  split
  next heq => simp [heq]
  next heq => simp [heq]
  next heq => simp [heq]

theorem getLong_eq_ok {number : Int64} :
    l.getLong index = .ok number ↔
      l.slots[index]? = some (.int (Slot.high number)) ∧
        l.slots[index + 1]? = some (.int (Slot.low number)) := by
  rw [← getInt_eq_ok, ← getInt_eq_ok]
  unfold getLong
  constructor
  · intro h
    cases hupper : l.getInt index with
    | error fault =>
        rw [hupper] at h
        cases h
    | ok upper =>
        rw [hupper] at h
        cases hlower : l.getInt (index + 1) with
        | error fault =>
            rw [hlower] at h
            cases h
        | ok lower =>
            rw [hlower] at h
            cases h
            rw [Slot.high_join, Slot.low_join]
            exact ⟨rfl, rfl⟩
  · intro h
    rw [h.1, h.2]
    exact congrArg Except.ok (Slot.join_high_low number)

theorem getReference_eq_ok {target : Reference} :
    l.getReference index = .ok target ↔ l.slots[index]? = some (.reference target) := by
  unfold getReference get
  cases hslot : l.slots[index]? with
  | none => simp [bind, Except.bind]
  | some slot =>
      cases slot with
      | int number => simp [bind, Except.bind, Slot.toReference]
      | reference target => simp [bind, Except.bind, Slot.toReference]

theorem getFloat_eq_ok {word : UInt32} :
    l.getFloat index = .ok word ↔ l.slots[index]? = some (.int word.toInt32) := by
  rw [← getInt_eq_ok]
  refine Iff.trans map_eq_ok ?_
  constructor
  · rintro ⟨number, hget, rfl⟩
    exact hget
  · intro hget
    exact ⟨_, hget, rfl⟩

theorem getDouble_eq_ok {word : UInt64} :
    l.getDouble index = .ok word ↔ l.getLong index = .ok word.toInt64 := by
  refine Iff.trans map_eq_ok ?_
  constructor
  · rintro ⟨number, hget, rfl⟩
    exact hget
  · intro hget
    exact ⟨_, hget, rfl⟩

theorem kind_of_read {kind : Kind} (h : l.read kind index = .ok value) :
    value.kind = kind := by
  cases kind <;> (obtain ⟨_, -, rfl⟩ := map_eq_ok.mp h; rfl)

theorem read_eq_ok {kind : Kind} :
    l.read kind index = .ok value ↔
      value.kind = kind ∧ ∀ k < kind.slots, l.slots[index + k]? = value.slots[k]? := by
  have hslots : l.read value.kind index = .ok value ↔
      ∀ k < value.kind.slots, l.slots[index + k]? = value.slots[k]? := by
    cases value with
    | int number => simp [read, Value.kind, map_eq_ok, getInt_eq_ok, Kind.slots, Value.slots]
    | long number =>
        simp [read, Value.kind, map_eq_ok, getLong_eq_ok, Kind.slots, Value.slots,
          Nat.le_one_iff_eq_zero_or_eq_one]
    | float word => simp [read, Value.kind, map_eq_ok, getFloat_eq_ok, Kind.slots, Value.slots]
    | double word =>
        simp [read, Value.kind, map_eq_ok, getDouble_eq_ok, getLong_eq_ok, Kind.slots, Value.slots,
          Nat.le_one_iff_eq_zero_or_eq_one]
    | reference target =>
        simp [read, Value.kind, map_eq_ok, getReference_eq_ok, Kind.slots, Value.slots]
  constructor
  · intro h
    cases kind_of_read h
    exact ⟨rfl, hslots.mp h⟩
  · rintro ⟨rfl, h⟩
    exact hslots.mpr h

theorem read_of_write (h : l.write index value = .ok l') :
    l'.read value.kind index = .ok value := by
  rw [read_eq_ok]
  constructor
  · rfl
  · intro k hk
    rw [← value.length_slots] at hk
    rw [getElem?_of_write h, if_pos (Nat.le_add_right index k), Nat.add_sub_cancel_left,
      List.getElem?_eq_getElem hk]
    rfl

end Locals
end Bytecode
