import Bytecode.Proofs.Execution.LocalSlots

/-!
# Local variables as memory

A narrow value takes one local variable, and a wide one takes two, the high half first.  Whatever
is written and read, in whatever order and with whatever overlap, each variable holds the slot that
was last written to it, and a value is read where all its slots stand.  A wide value is written as
a whole or not at all.
-/

namespace Bytecode
namespace Locals

/-!
# Writing in place
-/

/-- Writes slots one after the other.  What is written stays, also when a later slot has no
place. -/
def writeSlots (l : Locals) (index : Nat) : List Slot → Except Fault Unit × Locals
  | [] => (.ok (), l)
  | slot :: rest =>
      match l.set index slot with
      | .ok l' => writeSlots l' (index + 1) rest
      | .error fault => (.error fault, l)

/-- Writes a value slot by slot, once there is a place for the last slot.  Gives the outcome and the
variables that are left. -/
def writeInPlace (l : Locals) (index : Nat) (value : Value) : Except Fault Unit × Locals :=
  let last := index + value.kind.slots - 1
  if l.size ≤ last then (.error (l.outOfRange last), l) else l.writeSlots index value.slots

variable {l l' : Locals} {index : Nat}

theorem writeSlots_eq {slots : List Slot} (h : index + slots.length ≤ l.size) :
    l.writeSlots index slots = (.ok (), l.patch index slots) := by
  induction slots generalizing l index with
  | nil => rfl
  | cons slot rest ih =>
      rw [List.length_cons] at h
      have hlt : index < l.size := by omega
      have hrest : index + 1 + rest.length ≤ (l.patch index [slot]).size := by
        rw [size_patch]
        omega
      rw [writeSlots, set_eq, if_pos hlt]
      exact ih hrest

/-- Slot by slot, a value is written as a whole or not at all. -/
theorem writeInPlace_eq (l : Locals) (index : Nat) (value : Value) :
    l.writeInPlace index value =
      match l.write index value with
      | .ok l' => (.ok (), l')
      | .error fault => (.error fault, l) := by
  have hpos := value.kind.slots_pos
  unfold writeInPlace
  rw [write_eq]
  by_cases hfits : index + value.kind.slots ≤ l.size
  · rw [if_pos hfits, if_neg (by omega)]
    exact writeSlots_eq (value.length_slots.symm ▸ hfits)
  · rw [if_neg hfits, if_pos (by omega)]

end Locals

/-!
# Sequences of operations
-/

inductive LocalOp where
  | read (kind : Kind) (index : Nat)
  | write (index : Nat) (value : Value)

namespace LocalOp

/-- The slot that an operation puts at a place, among variables of the given number. -/
def slot? (size place : Nat) : LocalOp → Option Slot
  | read _ _ => none
  | write index value =>
      if index + value.kind.slots ≤ size ∧ index ≤ place then value.slots[place - index]? else none

end LocalOp

namespace Locals

variable {l l' : Locals} {index : Nat}

/-- The variables after some operations, the last of them first.  An operation that fails does not
keep the others from being carried out. -/
def after (l : Locals) : List LocalOp → Locals
  | [] => l
  | .read _ _ :: earlier => l.after earlier
  | .write index value :: earlier => ((l.after earlier).writeInPlace index value).2

def held (l : Locals) (place : Nat) : List LocalOp → Option Slot
  | [] => l.slots[place]?
  | op :: earlier => (op.slot? l.size place).or (l.held place earlier)

theorem size_after (l : Locals) (history : List LocalOp) : (l.after history).size = l.size := by
  induction history with
  | nil => rfl
  | cons op earlier ih =>
      cases op with
      | read kind index => exact ih
      | write index value =>
          rw [after, writeInPlace_eq, write_eq]
          split
          next heq =>
              split at heq
              · cases heq
                exact (size_patch _ index value.slots).trans ih
              · cases heq
          next => exact ih

/-- Each variable holds what the operations, looked at from the last one back, put there. -/
theorem getElem?_after (l : Locals) (history : List LocalOp) (place : Nat) :
    (l.after history).slots[place]? = l.held place history := by
  -- the last operation decides about the place or leaves it to those before
  induction history with
  | nil => rfl
  | cons op earlier ih =>
      cases op with
      | read kind index => exact ih
      | write index value =>
          rw [after, writeInPlace_eq, write_eq, held, LocalOp.slot?, ← ih, size_after]
          by_cases hfits : index + value.kind.slots ≤ l.size
          · have hplaces : index + value.slots.length ≤ (l.after earlier).size := by
              rw [size_after, value.length_slots]
              exact hfits
            simp only [hfits, true_and]
            exact getElem?_patch hplaces place
          · simp [hfits]

/-!
# Reading
-/

theorem getInt_eq_illegal :
    (∃ cause, l.getInt index = .error (.illegal cause)) ↔
      ∃ target, l.slots[index]? = some (.reference target) := by
  rw [getInt_eq]
  split
  next heq => simp [heq]
  next heq => simp [heq]
  next heq => simp [heq, outOfRange]

theorem getLong_eq_illegal :
    (∃ cause, l.getLong index = .error (.illegal cause)) ↔
      (∃ target, l.slots[index]? = some (.reference target)) ∨
        ∃ target, l.slots[index + 1]? = some (.reference target) := by
  unfold getLong
  rw [getInt_eq, getInt_eq]
  cases hupper : l.slots[index]? with
  | none =>
      -- behind a place that is missing there is none
      have hlower : l.slots[index + 1]? = none := by
        rw [Array.getElem?_eq_none_iff] at hupper ⊢
        exact Nat.le_succ_of_le hupper
      simp [hlower, outOfRange, bind, Except.bind]
  | some slot =>
      cases slot with
      | reference target => simp [bind, Except.bind]
      | int upper =>
          cases hlower : l.slots[index + 1]? with
          | none => simp [outOfRange, bind, Except.bind]
          | some slot =>
              cases slot with
              | reference target => simp [bind, Except.bind]
              | int lower => simp [bind, Except.bind, pure, Except.pure]

theorem read_eq_illegal {kind : Kind} (h : kind ≠ .reference) :
    (∃ cause, l.read kind index = .error (.illegal cause)) ↔
      ∃ k < kind.slots, ∃ target, l.slots[index + k]? = some (.reference target) := by
  have hfloat {fault : Fault} : l.getFloat index = .error fault ↔ l.getInt index = .error fault :=
    map_eq_error
  have hdouble {fault : Fault} :
      l.getDouble index = .error fault ↔ l.getLong index = .error fault :=
    map_eq_error
  cases kind with
  | int => simp [read, map_eq_error, getInt_eq_illegal, Kind.slots]
  | long =>
      simp [read, map_eq_error, getLong_eq_illegal, Kind.slots,
        Nat.le_one_iff_eq_zero_or_eq_one]
  | float => simp [read, map_eq_error, hfloat, getInt_eq_illegal, Kind.slots]
  | double =>
      simp [read, map_eq_error, hdouble, getLong_eq_illegal, Kind.slots,
        Nat.le_one_iff_eq_zero_or_eq_one]
  | reference => exact absurd rfl h

/-!
# Values that overlap
-/

variable {value : Value} {place : Nat} {number : Int64} {word : Int32}

theorem getLong_of_write_upper (hnumber : l.getLong index = .ok number)
    (hwrite : l.write place value = .ok l') (hplace : place + value.kind.slots = index + 1)
    (hword : value.slots.getLast? = some (.int word)) :
    l'.getLong index = .ok (Slot.join word (Slot.low number)) := by
  rw [getLong_eq_ok] at hnumber ⊢
  rw [Slot.high_join, Slot.low_join]
  constructor
  · rw [List.getLast?_eq_getElem?, value.length_slots] at hword
    have hlast : index - place = value.kind.slots - 1 := by omega
    have hpos := value.kind.slots_pos
    rw [getElem?_of_write hwrite, if_pos (by omega), hlast, hword]
    rfl
  · rw [getElem?_of_write_outside hwrite (.inr (by omega))]
    exact hnumber.2

theorem getLong_of_write_lower (hnumber : l.getLong index = .ok number)
    (hwrite : l.write (index + 1) value = .ok l')
    (hword : value.slots.head? = some (.int word)) :
    l'.getLong index = .ok (Slot.join (Slot.high number) word) := by
  rw [getLong_eq_ok] at hnumber ⊢
  rw [Slot.high_join, Slot.low_join]
  constructor
  · rw [getElem?_of_write_outside hwrite (.inl (Nat.lt_succ_self index))]
    exact hnumber.1
  · rw [List.head?_eq_getElem?] at hword
    rw [getElem?_of_write hwrite, if_pos (Nat.le_refl _), Nat.sub_self, hword]
    rfl

/-- Any operations on local variables, the last of them first.  Each variable then holds the slot
that was last written to it.  A value is read where all its slots stand, and a kind other than the
references is refused as illegal where a reference stands in one of its places.  A value is written
where there are places for all its slots, and slot by slot it is written as a whole or not at all;
it is read back, and no other variable is changed.  A value that is written over one half of a wide
number changes the 32 bits of that half. -/
theorem typed_memory (l : Locals) (history : List LocalOp) (index : Nat) :
    let m := l.after history
    (∀ place, m.slots[place]? = l.held place history) ∧
    (∀ kind value, m.read kind index = .ok value ↔
      value.kind = kind ∧ ∀ k < kind.slots, m.slots[index + k]? = value.slots[k]?) ∧
    (∀ kind, kind ≠ .reference →
      ((∃ cause, m.read kind index = .error (.illegal cause)) ↔
        ∃ k < kind.slots, ∃ target, m.slots[index + k]? = some (.reference target))) ∧
    (∀ value,
      ((∃ m', m.write index value = .ok m') ↔ index + value.kind.slots ≤ l.size) ∧
      m.writeInPlace index value =
        match m.write index value with
        | .ok m' => (.ok (), m')
        | .error fault => (.error fault, m)) ∧
    (∀ value m', m.write index value = .ok m' →
      m'.read value.kind index = .ok value ∧ m'.size = l.size ∧
        ∀ place, place < index ∨ index + value.kind.slots ≤ place →
          m'.slots[place]? = m.slots[place]?) ∧
    ∀ number, m.getLong index = .ok number → ∀ place value m' word,
      m.write place value = .ok m' →
      (place + value.kind.slots = index + 1 → value.slots.getLast? = some (.int word) →
        ∃ number', m'.getLong index = .ok number' ∧
          number'.toBitVec = word.toBitVec ++ number.toBitVec.extractLsb' 0 32) ∧
      (place = index + 1 → value.slots.head? = some (.int word) →
        ∃ number', m'.getLong index = .ok number' ∧
          number'.toBitVec = number.toBitVec.extractLsb' 32 32 ++ word.toBitVec) := by
  intro m
  refine ⟨getElem?_after l history, ?_, ?_, ?_, ?_, ?_⟩
  · intro kind value
    exact read_eq_ok
  · intro kind hkind
    exact read_eq_illegal hkind
  · intro value
    have hsize : m.size = l.size := size_after l history
    constructor
    · simp [write_eq_ok, hsize]
    · exact writeInPlace_eq m index value
  · intro value m' hwrite
    refine ⟨read_of_write hwrite, ?_, fun place hplace => getElem?_of_write_outside hwrite hplace⟩
    obtain ⟨-, rfl⟩ := write_eq_ok.mp hwrite
    rw [size_patch, size_after]
  · intro number hnumber place value m' word hwrite
    constructor
    · intro hplace hword
      refine ⟨_, getLong_of_write_upper hnumber hwrite hplace hword, ?_⟩
      rw [Slot.toBitVec_join, Slot.toBitVec_low]
    · rintro rfl hword
      refine ⟨_, getLong_of_write_lower hnumber hwrite hword, ?_⟩
      rw [Slot.toBitVec_join, Slot.toBitVec_high]

end Locals

namespace OverlappingValues

open Locals

/-- The lower half of a number is written over by a wide value, and a wide value is written where
only its first half has a place. -/
def history : List LocalOp :=
  [.write 3 (.long 5), .read .long 0, .write 1 (.double 0x3FF8000000000000), .write 0 (.long (-2))]

theorem after_history :
    (zeroed 4).after history = ⟨#[.int (-1), .int 0x3FF80000, .int 0, .int 0]⟩ := by
  decide +kernel

/-- A number is read from the halves of two values.  Another number is written across its own upper
half and the half before it, and a reference keeps it from being read. -/
theorem read_across_values :
    ((zeroed 4).after history).read .long 0 = .ok (.long (-0xC0080000)) ∧
    (¬ ∃ m', ((zeroed 4).after history).write 3 (.long 5) = .ok m') ∧
    (∃ m', ((zeroed 4).after history).write 0 (.long 7) = .ok m' ∧
      m'.read .long 0 = .ok (.long 7) ∧ m'.slots[2]? = some (.int 0) ∧
        ∃ number, m'.getLong 1 = .ok number ∧ number.toBitVec = 7#32 ++ 0#32) ∧
    ∃ cause, ((zeroed 4).after (.write 2 (.reference none) :: history)).read .double 1 =
      .error (.illegal cause) := by
  rcases typed_memory (zeroed 4) history 0 with ⟨-, hread, -, hwrite, hkept, -⟩
  rcases typed_memory (zeroed 4) history 1 with ⟨-, -, -, -, -, hhalves⟩
  rcases typed_memory (zeroed 4) history 3 with ⟨-, -, -, hlast, -, -⟩
  rcases typed_memory (zeroed 4) (.write 2 (.reference none) :: history) 1 with
    ⟨-, -, hillegal, -, -, -⟩
  refine ⟨?_, ?_, ?_, ?_⟩
  · refine (hread .long _).mpr ⟨rfl, ?_⟩
    rw [after_history]
    decide +kernel
  · rw [(hlast (.long 5)).1]
    decide
  · obtain ⟨m', hm'⟩ := (hwrite (.long 7)).1.mpr (by decide)
    obtain ⟨hback, -, hother⟩ := hkept _ _ hm'
    have hnumber : ((zeroed 4).after history).getLong 1 = .ok 0x3FF8000000000000 := by
      rw [after_history]
      decide +kernel
    have hslot : ((zeroed 4).after history).slots[2]? = some (.int 0) := by
      rw [after_history]
      rfl
    refine ⟨m', hm', hback, (hother 2 (.inr (by decide))).trans hslot, ?_⟩
    exact (hhalves _ hnumber 0 (.long 7) m' 7 hm').1 rfl (by decide)
  · exact (hillegal .double (by decide)).mpr ⟨1, by decide, none, by decide +kernel⟩

end OverlappingValues
end Bytecode
