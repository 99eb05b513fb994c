import Bytecode.Proofs.Execution.CallingConvention

/-!
# Shuffles of values

Shuffles rearrange slots without a look at what the slots hold.  On a stack that holds values, where
some take one slot and some take two, they rearrange the values: each shuffle has one form for each
way in which values of one and of two slots can make up the slots that it works on.
-/

namespace Bytecode

open OperandStack (ofValues)

/-!
# Values in slots
-/

namespace Value

def Narrow (value : Value) : Prop :=
  value.kind.slots = 1

def Wide (value : Value) : Prop :=
  value.kind.slots = 2

theorem narrow_or_wide (value : Value) : value.Narrow ∨ value.Wide := by
  cases value with
  | int _ => exact .inl rfl
  | long _ => exact .inr rfl
  | float _ => exact .inl rfl
  | double _ => exact .inr rfl
  | reference _ => exact .inl rfl

@[simp]
theorem width_nil : width [] = 0 := rfl

theorem width_cons (value : Value) (values : List Value) :
    width (value :: values) = value.kind.slots + width values := by
  simp only [width, List.map_cons, List.sum_cons]

@[simp]
theorem Narrow.width_cons {value : Value} (h : value.Narrow) (values : List Value) :
    width (value :: values) = 1 + width values := by
  rw [Value.width_cons, h]

@[simp]
theorem Wide.width_cons {value : Value} (h : value.Wide) (values : List Value) :
    width (value :: values) = 2 + width values := by
  rw [Value.width_cons, h]

theorem width_eq_zero {values : List Value} : width values = 0 ↔ values = [] := by
  constructor
  · intro h
    cases values with
    | nil => rfl
    | cons value values =>
        rcases value.narrow_or_wide with hvalue | hvalue
        all_goals
          rw [hvalue.width_cons] at h
          omega
  · rintro rfl
    rfl

theorem width_eq_one {values : List Value} : width values = 1 ↔ ∃ a, a.Narrow ∧ values = [a] := by
  constructor
  · intro h
    cases values with
    | nil => cases h
    | cons value values =>
        rcases value.narrow_or_wide with hvalue | hvalue
        all_goals rw [hvalue.width_cons] at h
        · exact ⟨value, hvalue, by rw [width_eq_zero.mp (show width values = 0 by omega)]⟩
        · omega
  · rintro ⟨a, ha, rfl⟩
    exact ha.width_cons []

theorem width_eq_two {values : List Value} :
    width values = 2 ↔
      (∃ a, a.Wide ∧ values = [a]) ∨ ∃ b a, b.Narrow ∧ a.Narrow ∧ values = [b, a] := by
  constructor
  · intro h
    cases values with
    | nil => cases h
    | cons value values =>
        rcases value.narrow_or_wide with hvalue | hvalue
        all_goals rw [hvalue.width_cons] at h
        · obtain ⟨a, ha, rfl⟩ := width_eq_one.mp (show width values = 1 by omega)
          exact .inr ⟨value, a, hvalue, ha, rfl⟩
        · exact .inl ⟨value, hvalue, by rw [width_eq_zero.mp (show width values = 0 by omega)]⟩
  · rintro (⟨a, ha, rfl⟩ | ⟨b, a, hb, ha, rfl⟩)
    · exact ha.width_cons []
    · rw [hb.width_cons, ha.width_cons, width_nil]

end Value

/-!
# Forms
-/

namespace Shuffle

/-- What a shuffle makes of the values on top of a stack, the top at the right. -/
inductive Form : Shuffle → List Value → List Value → Prop where
  | pop {a : Value} (ha : a.Narrow) : Form .pop [a] []
  | pop2Narrow {b a : Value} (hb : b.Narrow) (ha : a.Narrow) : Form .pop2 [b, a] []
  | pop2Wide {a : Value} (ha : a.Wide) : Form .pop2 [a] []
  | dup {a : Value} (ha : a.Narrow) : Form .dup [a] [a, a]
  | dupX1 {b a : Value} (hb : b.Narrow) (ha : a.Narrow) : Form .dupX1 [b, a] [a, b, a]
  | dupX2Narrow {c b a : Value} (hc : c.Narrow) (hb : b.Narrow) (ha : a.Narrow) :
      Form .dupX2 [c, b, a] [a, c, b, a]
  | dupX2Wide {b a : Value} (hb : b.Wide) (ha : a.Narrow) : Form .dupX2 [b, a] [a, b, a]
  | dup2Narrow {b a : Value} (hb : b.Narrow) (ha : a.Narrow) : Form .dup2 [b, a] [b, a, b, a]
  | dup2Wide {a : Value} (ha : a.Wide) : Form .dup2 [a] [a, a]
  | dup2X1Narrow {c b a : Value} (hc : c.Narrow) (hb : b.Narrow) (ha : a.Narrow) :
      Form .dup2X1 [c, b, a] [b, a, c, b, a]
  | dup2X1Wide {b a : Value} (hb : b.Narrow) (ha : a.Wide) : Form .dup2X1 [b, a] [a, b, a]
  | dup2X2Narrow {d c b a : Value} (hd : d.Narrow) (hc : c.Narrow) (hb : b.Narrow)
      (ha : a.Narrow) : Form .dup2X2 [d, c, b, a] [b, a, d, c, b, a]
  | dup2X2WideTop {c b a : Value} (hc : c.Narrow) (hb : b.Narrow) (ha : a.Wide) :
      Form .dup2X2 [c, b, a] [a, c, b, a]
  | dup2X2WideUnder {c b a : Value} (hc : c.Wide) (hb : b.Narrow) (ha : a.Narrow) :
      Form .dup2X2 [c, b, a] [b, a, c, b, a]
  | dup2X2Wide {b a : Value} (hb : b.Wide) (ha : a.Wide) : Form .dup2X2 [b, a] [a, b, a]
  | swap {b a : Value} (hb : b.Narrow) (ha : a.Narrow) : Form .swap [b, a] [a, b]

/-!
# Blocks

Every shuffle moves a block of slots past the block under it, or copies it there.
-/

def top : Shuffle → Nat
  | pop | dup | dupX1 | dupX2 | swap => 1
  | pop2 | dup2 | dup2X1 | dup2X2 => 2

def under : Shuffle → Nat
  | pop | pop2 | dup | dup2 => 0
  | dupX1 | dup2X1 | swap => 1
  | dupX2 | dup2X2 => 2

/-- What the shuffle makes of the two blocks, the lower one first. -/
def rearrange {α : Type} : Shuffle → List α → List α → List α
  | pop, lower, _ | pop2, lower, _ => lower
  | swap, lower, upper => upper ++ lower
  | dup, lower, upper | dupX1, lower, upper | dupX2, lower, upper | dup2, lower, upper
  | dup2X1, lower, upper | dup2X2, lower, upper => upper ++ lower ++ upper

theorem rearrange_flatMap {α β : Type} (f : α → List β) (move : Shuffle) (lower upper : List α) :
    (move.rearrange lower upper).flatMap f =
      move.rearrange (lower.flatMap f) (upper.flatMap f) := by
  cases move <;> simp only [rearrange, List.flatMap_append]

theorem apply_blocks (move : Shuffle) {lower upper : List Slot} (hlower : lower.length = move.under)
    (hupper : upper.length = move.top) (deeper : List Slot) :
    move.apply ⟨(lower ++ upper).reverse ++ deeper⟩ =
      .ok () ⟨(move.rearrange lower upper).reverse ++ deeper⟩ := by
  -- once the slots have names, each move computes
  cases move with
  | pop =>
      obtain rfl := List.length_eq_zero_iff.mp hlower
      obtain ⟨a, rfl⟩ := List.length_eq_one_iff.mp hupper
      rfl
  | pop2 =>
      obtain rfl := List.length_eq_zero_iff.mp hlower
      obtain ⟨b, a, rfl⟩ := List.length_eq_two.mp hupper
      rfl
  | dup =>
      obtain rfl := List.length_eq_zero_iff.mp hlower
      obtain ⟨a, rfl⟩ := List.length_eq_one_iff.mp hupper
      rfl
  | dupX1 =>
      obtain ⟨b, rfl⟩ := List.length_eq_one_iff.mp hlower
      obtain ⟨a, rfl⟩ := List.length_eq_one_iff.mp hupper
      rfl
  | dupX2 =>
      obtain ⟨c, b, rfl⟩ := List.length_eq_two.mp hlower
      obtain ⟨a, rfl⟩ := List.length_eq_one_iff.mp hupper
      rfl
  | dup2 =>
      obtain rfl := List.length_eq_zero_iff.mp hlower
      obtain ⟨b, a, rfl⟩ := List.length_eq_two.mp hupper
      rfl
  | dup2X1 =>
      obtain ⟨c, rfl⟩ := List.length_eq_one_iff.mp hlower
      obtain ⟨b, a, rfl⟩ := List.length_eq_two.mp hupper
      rfl
  | dup2X2 =>
      obtain ⟨d, c, rfl⟩ := List.length_eq_two.mp hlower
      obtain ⟨b, a, rfl⟩ := List.length_eq_two.mp hupper
      rfl
  | swap =>
      obtain ⟨b, rfl⟩ := List.length_eq_one_iff.mp hlower
      obtain ⟨a, rfl⟩ := List.length_eq_one_iff.mp hupper
      rfl

theorem Form.blocks {move : Shuffle} {before after : List Value} (h : Form move before after) :
    ∃ lower upper, Value.width lower = move.under ∧ Value.width upper = move.top ∧
      before = lower ++ upper ∧ after = move.rearrange lower upper := by
  cases h with
  | @pop a ha => exact ⟨[], [a], rfl, ha.width_cons [], rfl, rfl⟩
  | @pop2Narrow b a hb ha => exact ⟨[], [b, a], rfl, by simp [hb, ha, top], rfl, rfl⟩
  | @pop2Wide a ha => exact ⟨[], [a], rfl, ha.width_cons [], rfl, rfl⟩
  | @dup a ha => exact ⟨[], [a], rfl, ha.width_cons [], rfl, rfl⟩
  | @dupX1 b a hb ha => exact ⟨[b], [a], hb.width_cons [], ha.width_cons [], rfl, rfl⟩
  | @dupX2Narrow c b a hc hb ha =>
      exact ⟨[c, b], [a], by simp [hc, hb, under], ha.width_cons [], rfl, rfl⟩
  | @dupX2Wide b a hb ha => exact ⟨[b], [a], hb.width_cons [], ha.width_cons [], rfl, rfl⟩
  | @dup2Narrow b a hb ha => exact ⟨[], [b, a], rfl, by simp [hb, ha, top], rfl, rfl⟩
  | @dup2Wide a ha => exact ⟨[], [a], rfl, ha.width_cons [], rfl, rfl⟩
  | @dup2X1Narrow c b a hc hb ha =>
      exact ⟨[c], [b, a], hc.width_cons [], by simp [hb, ha, top], rfl, rfl⟩
  | @dup2X1Wide b a hb ha => exact ⟨[b], [a], hb.width_cons [], ha.width_cons [], rfl, rfl⟩
  | @dup2X2Narrow d c b a hd hc hb ha =>
      exact ⟨[d, c], [b, a], by simp [hd, hc, under], by simp [hb, ha, top], rfl, rfl⟩
  | @dup2X2WideTop c b a hc hb ha =>
      exact ⟨[c, b], [a], by simp [hc, hb, under], ha.width_cons [], rfl, rfl⟩
  | @dup2X2WideUnder c b a hc hb ha =>
      exact ⟨[c], [b, a], hc.width_cons [], by simp [hb, ha, top], rfl, rfl⟩
  | @dup2X2Wide b a hb ha => exact ⟨[b], [a], hb.width_cons [], ha.width_cons [], rfl, rfl⟩
  | @swap b a hb ha => exact ⟨[b], [a], hb.width_cons [], ha.width_cons [], rfl, rfl⟩

/-- No way in which values can fill the two blocks is left out. -/
theorem form_of_blocks (move : Shuffle) {lower upper : List Value}
    (hlower : Value.width lower = move.under) (hupper : Value.width upper = move.top) :
    Form move (lower ++ upper) (move.rearrange lower upper) := by
  -- one slot is a narrow value; two slots are a wide value or two narrow ones
  cases move with
  | pop =>
      obtain rfl := Value.width_eq_zero.mp hlower
      obtain ⟨a, ha, rfl⟩ := Value.width_eq_one.mp hupper
      exact .pop ha
  | pop2 =>
      obtain rfl := Value.width_eq_zero.mp hlower
      obtain ⟨a, ha, rfl⟩ | ⟨b, a, hb, ha, rfl⟩ := Value.width_eq_two.mp hupper
      · exact .pop2Wide ha
      · exact .pop2Narrow hb ha
  | dup =>
      obtain rfl := Value.width_eq_zero.mp hlower
      obtain ⟨a, ha, rfl⟩ := Value.width_eq_one.mp hupper
      exact .dup ha
  | dupX1 =>
      obtain ⟨b, hb, rfl⟩ := Value.width_eq_one.mp hlower
      obtain ⟨a, ha, rfl⟩ := Value.width_eq_one.mp hupper
      exact .dupX1 hb ha
  | dupX2 =>
      obtain ⟨a, ha, rfl⟩ := Value.width_eq_one.mp hupper
      obtain ⟨b, hb, rfl⟩ | ⟨c, b, hc, hb, rfl⟩ := Value.width_eq_two.mp hlower
      · exact .dupX2Wide hb ha
      · exact .dupX2Narrow hc hb ha
  | dup2 =>
      obtain rfl := Value.width_eq_zero.mp hlower
      obtain ⟨a, ha, rfl⟩ | ⟨b, a, hb, ha, rfl⟩ := Value.width_eq_two.mp hupper
      · exact .dup2Wide ha
      · exact .dup2Narrow hb ha
  | dup2X1 =>
      obtain ⟨c, hc, rfl⟩ := Value.width_eq_one.mp hlower
      obtain ⟨a, ha, rfl⟩ | ⟨b, a, hb, ha, rfl⟩ := Value.width_eq_two.mp hupper
      · exact .dup2X1Wide hc ha
      · exact .dup2X1Narrow hc hb ha
  | dup2X2 =>
      obtain ⟨c, hc, rfl⟩ | ⟨d, c, hd, hc, rfl⟩ := Value.width_eq_two.mp hlower
      all_goals obtain ⟨a, ha, rfl⟩ | ⟨b, a, hb, ha, rfl⟩ := Value.width_eq_two.mp hupper
      · exact .dup2X2Wide hc ha
      · exact .dup2X2WideUnder hc hb ha
      · exact .dup2X2WideTop hd hc ha
      · exact .dup2X2Narrow hd hc hb ha
  | swap =>
      obtain ⟨b, hb, rfl⟩ := Value.width_eq_one.mp hlower
      obtain ⟨a, ha, rfl⟩ := Value.width_eq_one.mp hupper
      exact .swap hb ha

/-- The forms of a shuffle are all the ways in which values can fill its blocks. -/
theorem form_iff {move : Shuffle} {before after : List Value} :
    Form move before after ↔
      ∃ lower upper, Value.width lower = move.under ∧ Value.width upper = move.top ∧
        before = lower ++ upper ∧ after = move.rearrange lower upper := by
  constructor
  · exact Form.blocks
  · rintro ⟨lower, upper, hlower, hupper, rfl, rfl⟩
    exact form_of_blocks move hlower hupper

end Shuffle

/-!
# Shuffles on stacks of values
-/

theorem OperandStack.ofValues_append (deeper values : List Value) :
    ofValues (deeper ++ values) =
      ⟨(values.flatMap Value.slots).reverse ++ (ofValues deeper).slots⟩ := by
  rw [← toList_ofValues, toList, List.reverse_reverse, ← foldl_append_slots]
  unfold ofValues
  rw [List.foldl_append]

theorem Shuffle.apply_ofValues {move : Shuffle} {before after : List Value}
    (h : move.Form before after) (deeper : List Value) :
    move.apply (ofValues (deeper ++ before)) = .ok () (ofValues (deeper ++ after)) := by
  obtain ⟨lower, upper, hlower, hupper, rfl, rfl⟩ := h.blocks
  rw [← Value.length_flatMap_slots] at hlower hupper
  rw [OperandStack.ofValues_append, OperandStack.ofValues_append, List.flatMap_append,
    rearrange_flatMap]
  exact apply_blocks move hlower hupper _

/-- A value that is pushed on any stack is popped as the same value, whatever type of its kind it is
popped as, and leaves the stack as it was.  A shuffle takes the values on top of a stack of values
to those of its form, over whatever lies deeper. -/
theorem OperandStack.values_kept :
    (∀ (s : OperandStack) (type : ValueType) (value : Value), type.Admits value →
      (pushValue value >>= fun _ => popValue type) s = .ok value s) ∧
    ∀ (move : Shuffle) (before after : List Value), move.Form before after →
      ∀ deeper : List Value,
        move.apply (ofValues (deeper ++ before)) = .ok () (ofValues (deeper ++ after)) := by
  constructor
  · intro s type value hadmits
    rw [bind_of_ok (pushValue_apply value s)]
    exact popValue_append hadmits s
  · intro move before after hform deeper
    exact Shuffle.apply_ofValues hform deeper

namespace WideOperands

/-- The upper of two wide values is copied under the other one, and a signalling NaN keeps its
bits. -/
theorem upper_copied :
    Shuffle.dup2X2.Form [.long (-1), .long 0x100000002]
        [.long 0x100000002, .long (-1), .long 0x100000002] ∧
      Shuffle.dup2X2.apply (ofValues [.int 7, .long (-1), .long 0x100000002]) =
        .ok () (ofValues [.int 7, .long 0x100000002, .long (-1), .long 0x100000002]) ∧
      ValueType.double.Admits (.double 0x7FF0000000000001) ∧
      (OperandStack.pushValue (.double 0x7FF0000000000001) >>= fun _ =>
          OperandStack.popValue .double) (ofValues [.int 7]) =
        .ok (.double 0x7FF0000000000001) (ofValues [.int 7]) := by
  have hform : Shuffle.dup2X2.Form [.long (-1), .long 0x100000002]
      [.long 0x100000002, .long (-1), .long 0x100000002] := .dup2X2Wide rfl rfl
  have hadmits : ValueType.double.Admits (.double 0x7FF0000000000001) := rfl
  exact ⟨hform, OperandStack.values_kept.2 _ _ _ hform [.int 7], hadmits,
    OperandStack.values_kept.1 _ _ _ hadmits⟩

end WideOperands
end Bytecode
