import Bytecode.Proofs.Execution.CallingConvention
import Bytecode.Proofs.Execution.Decoding
import Bytecode.Proofs.Execution.Switches
import Mathlib.Algebra.Group.Int.Defs

/-!
# Access to local variables

The index of a local variable is part of the operation code, or takes one byte, or takes two behind
the code that widens.  Whichever way an access is spelled, it does the same with the operands and
the variables, and fails with the same fault.  A value that is stored is loaded again bit for bit.
-/

namespace Bytecode

open OperandStack

/-!
# Values in slots
-/

namespace OperandStack

variable {s s' : OperandStack}

theorem ok_of_map {α β : Type} {x : StackM α} {f : α → β} {b : β}
    (h : (f <$> x) s = .ok b s') : ∃ a, x s = .ok a s' ∧ f a = b := by
  rw [map_eq_pure_bind] at h
  obtain ⟨a, s₁, hx, h⟩ := bind_eq_ok h
  cases h
  exact ⟨a, hx, rfl⟩

theorem popLong_eq_ok {value : Int64} (h : popLong s = .ok value s') :
    s = ⟨.int (Slot.low value) :: .int (Slot.high value) :: s'.slots⟩ := by
  obtain ⟨lower, s₁, hlower, h⟩ := bind_eq_ok h
  obtain ⟨upper, s₂, hupper, h⟩ := bind_eq_ok h
  cases h
  rw [popInt_eq_ok hlower, popInt_eq_ok hupper, Slot.high_join, Slot.low_join]

theorem append_of_popKind {kind : Kind} {value : Value} (h : popKind kind s = .ok value s') :
    s'.append value = s := by
  cases kind with
  | int =>
      obtain ⟨number, hpop, rfl⟩ := ok_of_map h
      exact (popInt_eq_ok hpop).symm
  | long =>
      obtain ⟨number, hpop, rfl⟩ := ok_of_map h
      exact (popLong_eq_ok hpop).symm
  | float =>
      obtain ⟨word, hpop, rfl⟩ := ok_of_map h
      obtain ⟨number, s₁, hnumber, hword⟩ := bind_eq_ok hpop
      cases hword
      exact (popInt_eq_ok hnumber).symm
  | double =>
      obtain ⟨word, hpop, rfl⟩ := ok_of_map h
      obtain ⟨number, s₁, hnumber, hword⟩ := bind_eq_ok hpop
      cases hword
      exact (popLong_eq_ok hnumber).symm
  | reference =>
      obtain ⟨target, hpop, rfl⟩ := ok_of_map h
      exact (popReference_eq_ok hpop).symm

end OperandStack

namespace Locals

variable {l l' : Locals} {index : Nat}

theorem get_of_set {slot : Slot} (h : l.set index slot = .ok l') (other : Nat) :
    l'.get other = if other = index then .ok slot else l.get other := by
  unfold set at h
  split at h
  next hlt =>
      cases h
      unfold get outOfRange size
      rw [Array.getElem?_set, Array.size_set]
      by_cases hother : other = index
      · rw [if_pos hother.symm, if_pos hother]
      · rw [if_neg (Ne.symm hother), if_neg hother]
  next => cases h

theorem setInt_of_getInt {value : Int32} (h : l.getInt index = .ok value) (value' : Int32) :
    ∃ l', l.setInt index value' = .ok l' := by
  unfold getInt get at h
  unfold setInt set
  by_cases hlt : index < l.slots.size
  · rw [dif_pos hlt]
    exact ⟨_, rfl⟩
  · rw [Array.getElem?_eq_none (by omega)] at h
    cases h

end Locals

/-!
# Spellings
-/

def Kind.position : Kind → Nat
  | int => 0
  | long => 1
  | float => 2
  | double => 3
  | reference => 4

inductive Movement where
  | load
  | store

namespace Movement

def instruction : Movement → Kind → Nat → Instruction
  | load => .load
  | store => .store

/-- First of the codes that have the index in a byte of its own. -/
def indexed : Movement → Nat
  | load => 0x15
  | store => 0x36

/-- First of the codes that have the index in themselves, four for each kind. -/
def direct : Movement → Nat
  | load => 0x1A
  | store => 0x3B

end Movement

/-- The ways in which an access to a local variable can be spelled. -/
inductive Instruction.Spelled : Instruction → List UInt8 → Prop where
  | direct (move : Movement) (kind : Kind) {index : Nat} (h : index < 4) :
      Spelled (move.instruction kind index)
        [UInt8.ofNat (move.direct + 4 * kind.position + index)]
  | indexed (move : Movement) (kind : Kind) {index : Nat} (h : index < 2 ^ 8) :
      Spelled (move.instruction kind index)
        [UInt8.ofNat (move.indexed + kind.position), UInt8.ofNat index]
  | wide (move : Movement) (kind : Kind) {index : Nat} (h : index < 2 ^ 16) :
      Spelled (move.instruction kind index)
        (0xC4 :: UInt8.ofNat (move.indexed + kind.position) :: BigEndian.u16 (UInt16.ofNat index))
  | increment {index : Nat} {delta : Int32} (h : index < 2 ^ 8) (hlow : -2 ^ 7 ≤ delta.toInt)
      (hhigh : delta.toInt < 2 ^ 7) :
      Spelled (.increment index delta) [0x84, UInt8.ofNat index, delta.toInt8.toUInt8]
  | wideIncrement {index : Nat} {delta : Int32} (h : index < 2 ^ 16)
      (hlow : -2 ^ 15 ≤ delta.toInt) (hhigh : delta.toInt < 2 ^ 15) :
      Spelled (.increment index delta)
        (0xC4 :: 0x84 :: (BigEndian.u16 (UInt16.ofNat index) ++
          BigEndian.u16 delta.toInt16.toUInt16))

def Frame.Faces (f : Frame) (bytes : List UInt8) : Prop :=
  bytes <+: f.method.code.toList.drop f.pc

instance (f : Frame) (bytes : List UInt8) : Decidable (f.Faces bytes) :=
  inferInstanceAs (Decidable (bytes <+: f.method.code.toList.drop f.pc))

namespace Decoder

theorem i8_reads {delta : Int32} (hlow : -2 ^ 7 ≤ delta.toInt) (hhigh : delta.toInt < 2 ^ 7) :
    i8.Reads [delta.toInt8.toUInt8] delta := by
  have hnarrow : delta.toInt8.toUInt8.toInt8.toInt32 = delta := by
    apply Int32.toInt_inj.mp
    have hbits : delta.toInt8.toUInt8.toInt8 = delta.toInt8 := rfl
    rw [hbits, Int8.toInt_toInt32, Int32.toInt_toInt8]
    exact Int.bmod_eq_of_le (by omega) (by omega)
  have h := (u8_reads delta.toInt8.toUInt8).map fun b => b.toInt8.toInt32
  rw [hnarrow] at h
  exact h

theorem i16_reads {delta : Int32} (hlow : -2 ^ 15 ≤ delta.toInt) (hhigh : delta.toInt < 2 ^ 15) :
    i16.Reads (BigEndian.u16 delta.toInt16.toUInt16) delta := by
  have hnarrow : delta.toInt16.toUInt16.toInt16.toInt32 = delta := by
    apply Int32.toInt_inj.mp
    have hbits : delta.toInt16.toUInt16.toInt16 = delta.toInt16 := rfl
    rw [hbits, Int16.toInt_toInt32, Int32.toInt_toInt16]
    exact Int.bmod_eq_of_le (by omega) (by omega)
  have h := (u16_reads delta.toInt16.toUInt16).map fun w => w.toInt16.toInt32
  rw [hnarrow] at h
  exact h

theorem kindAt_position (kind : Kind) : kindAt kind.position = kind := by
  cases kind <;> rfl

theorem position_lt (kind : Kind) : kind.position < 5 := by
  cases kind <;> decide

theorem instruction_direct (move : Movement) (kind : Kind) {index : Nat} (h : index < 4) :
    instruction (UInt8.ofNat (move.direct + 4 * kind.position + index)) =
      pure (move.instruction kind index) := by
  have hposition := position_lt kind
  have hkind : (4 * kind.position + index) / 4 = kind.position := by omega
  have hindex : (4 * kind.position + index) % 4 = index := by omega
  cases move with
  | load =>
      have hbound : 0x1A + 4 * kind.position + index < 2 ^ 8 := by omega
      have hcode : (UInt8.ofNat (0x1A + 4 * kind.position + index)).toNat =
          0x1A + (4 * kind.position + index) := by
        rw [UInt8.toNat_ofNat_of_lt' hbound, Nat.add_assoc]
      unfold instruction Movement.direct
      dsimp only
      rw [hcode]
      iterate 2 rw [if_neg (by omega)]
      rw [if_pos (by omega), Nat.add_sub_cancel_left, hkind, hindex, kindAt_position]
      rfl
  | store =>
      have hbound : 0x3B + 4 * kind.position + index < 2 ^ 8 := by omega
      have hcode : (UInt8.ofNat (0x3B + 4 * kind.position + index)).toNat =
          0x3B + (4 * kind.position + index) := by
        rw [UInt8.toNat_ofNat_of_lt' hbound, Nat.add_assoc]
      unfold instruction Movement.direct
      dsimp only
      rw [hcode]
      iterate 5 rw [if_neg (by omega)]
      rw [if_pos (by omega), Nat.add_sub_cancel_left, hkind, hindex, kindAt_position]
      rfl

theorem instruction_indexed (move : Movement) (kind : Kind) :
    instruction (UInt8.ofNat (move.indexed + kind.position)) =
      (do return move.instruction kind (← u8).toNat) := by
  cases move <;> cases kind <;> rfl

theorem widened_indexed (move : Movement) (kind : Kind) :
    widened (UInt8.ofNat (move.indexed + kind.position)) =
      (do return move.instruction kind (← u16).toNat) := by
  cases move <;> cases kind <;> rfl

theorem reads_of_pure {code : UInt8} {i : Instruction} (h : instruction code = pure i) :
    (u8 >>= instruction).Reads [code] i := by
  have hnothing : (instruction code).Reads [] i := by
    rw [h]
    exact .pure i
  exact (u8_reads code).bind hnothing

theorem spelled_reads {i : Instruction} {bytes : List UInt8} (h : i.Spelled bytes) :
    (u8 >>= instruction).Reads bytes i := by
  cases h with
  | direct move kind h => exact reads_of_pure (instruction_direct move kind h)
  | @indexed move kind index h =>
      refine (u8_reads _).bind ?_
      have hread := (u8_reads (UInt8.ofNat index)).map fun b => move.instruction kind b.toNat
      rw [UInt8.toNat_ofNat_of_lt' h] at hread
      rw [instruction_indexed]
      exact hread
  | @wide move kind index h =>
      refine (u8_reads 0xC4).bind ((u8_reads _).bind (f := widened) ?_)
      have hread := (u16_reads (UInt16.ofNat index)).map fun w => move.instruction kind w.toNat
      rw [UInt16.toNat_ofNat_of_lt' h] at hread
      rw [widened_indexed]
      exact hread
  | @increment index delta h hlow hhigh =>
      have hread := (u8_reads (UInt8.ofNat index)).bind
        (f := fun b => do return Instruction.increment b.toNat (← i8))
        ((i8_reads hlow hhigh).map _)
      rw [UInt8.toNat_ofNat_of_lt' h] at hread
      exact (u8_reads 0x84).bind hread
  | @wideIncrement index delta h hlow hhigh =>
      have hread := (u16_reads (UInt16.ofNat index)).bind
        (f := fun w => do return Instruction.increment w.toNat (← i16))
        ((i16_reads hlow hhigh).map _)
      rw [UInt16.toNat_ofNat_of_lt' h] at hread
      exact (u8_reads 0xC4).bind ((u8_reads 0x84).bind (f := widened) hread)

end Decoder

theorem Frame.Faces.next {f : Frame} {bytes : List UInt8} {i : Instruction} (h : f.Faces bytes)
    (hreads : (Decoder.u8 >>= Decoder.instruction).Reads bytes i) :
    f.Next i (f.pc + bytes.length) := by
  have hread := hreads f.method.code f.pc h
  change Except.bind (Decoder.u8 f.method.code f.pc) _ = _ at hread
  rw [Decoder.u8_apply] at hread
  cases hcode : f.method.code[f.pc]? with
  | none =>
      rw [hcode] at hread
      cases hread
  | some opcode =>
      rw [hcode] at hread
      exact ⟨opcode, hcode, hread⟩

/-!
# What an access does
-/

def Exec.ended : Except Fault Unit → Activation → EStateM.Result Halt Activation Effect
  | .ok (), a => .ok .next a
  | .error fault, a => .error (.fault fault) a

def Frame.past (f : Frame) (length : Nat) (stack : OperandStack) (locals : Locals) : Frame :=
  { f with stack, locals, current := f.pc, pc := f.pc + length }

/-- The next step is an instruction of the given length that ends in this way and leaves this stack
and these variables.  Nothing else is changed, but for traces in the log. -/
def Frame.Does (f : Frame) (length : Nat) (outcome : Except Fault Unit) (stack : OperandStack)
    (locals : Locals) : Prop :=
  ∀ (load : Loader) (tracing : Bool) (m : Machine), ∃ log,
    Exec.step load tracing ⟨f, m⟩ =
      Exec.ended outcome ⟨f.past length stack locals, { m with log }⟩

/-- An access to a variable: how it ends, and the stack and the variables that it leaves. -/
inductive Instruction.Access (s : OperandStack) (l : Locals) :
    Instruction → Except Fault Unit → OperandStack → Locals → Prop where
  | loaded {kind : Kind} {index : Nat} {value : Value} (hread : l.read kind index = .ok value) :
      Access s l (.load kind index) (.ok ()) (s.append value) l
  | unread {kind : Kind} {index : Nat} {fault : Fault} (hread : l.read kind index = .error fault) :
      Access s l (.load kind index) (.error fault) s l
  | stored {kind : Kind} {index : Nat} {value : Value} {s' : OperandStack} {l' : Locals}
      (hpop : popKind kind s = .ok value s') (hwrite : l.write index value = .ok l') :
      Access s l (.store kind index) (.ok ()) s' l'
  | unpopped {kind : Kind} {index : Nat} {fault : Fault} {s' : OperandStack}
      (hpop : popKind kind s = .error fault s') :
      Access s l (.store kind index) (.error fault) s' l
  | unwritten {kind : Kind} {index : Nat} {value : Value} {fault : Fault} {s' : OperandStack}
      (hpop : popKind kind s = .ok value s') (hwrite : l.write index value = .error fault) :
      Access s l (.store kind index) (.error fault) s' l
  | incremented {index : Nat} {delta value : Int32} {l' : Locals}
      (hget : l.getInt index = .ok value) (hset : l.setInt index (value + delta) = .ok l') :
      Access s l (.increment index delta) (.ok ()) s l'
  | uncounted {index : Nat} {delta : Int32} {fault : Fault}
      (hget : l.getInt index = .error fault) :
      Access s l (.increment index delta) (.error fault) s l

namespace Exec

variable {α β : Type} {f : Frame} {m : Machine}

theorem thenNext_of_ok {x : Exec Unit} {a a' : Activation} (h : x a = .ok () a') :
    thenNext x a = ended (.ok ()) a' :=
  bind_of_ok h

theorem thenNext_of_error {x : Exec Unit} {a a' : Activation} {fault : Fault}
    (h : x a = .error (.fault fault) a') : thenNext x a = ended (.error fault) a' :=
  bind_of_error h

section

variable {x : Except Fault α} {next : α → Exec β} {a : Activation}

theorem lift_of_ok {b : α} (h : x = .ok b) : (liftM x >>= next) a = next b a := by
  subst h
  rfl

theorem lift_of_error {fault : Fault} (h : x = .error fault) :
    (liftM x >>= next) a = .error (.fault fault) a := by
  subst h
  rfl

end

section

variable {x : StackM α} {next : α → Exec β} {stack : OperandStack}

theorem onStack_of_ok {b : α} (h : x f.stack = .ok b stack) :
    (liftM x >>= next) ⟨f, m⟩ = next b ⟨{ f with stack }, m⟩ := by
  apply bind_of_ok
  rw [Thread.onStack_apply, h]

theorem onStack_of_error {fault : Fault} (h : x f.stack = .error fault stack) :
    (liftM x >>= next) ⟨f, m⟩ = .error (.fault fault) ⟨{ f with stack }, m⟩ := by
  apply bind_of_error
  rw [Thread.onStack_apply, h]

end

theorem storeLocal_of_popKind {kind : Kind} {index : Nat} {value : Value} {stack : OperandStack}
    (h : popKind kind f.stack = .ok value stack) :
    storeLocal kind index ⟨f, m⟩ =
      (liftM (f.locals.write index value) >>= setLocals) ⟨{ f with stack }, m⟩ :=
  onStack_of_ok h

theorem execute_of_access {i : Instruction} {outcome : Except Fault Unit} {stack : OperandStack}
    {locals : Locals} (h : i.Access f.stack f.locals outcome stack locals) (load : Loader) :
    i.execute load ⟨f, m⟩ = ended outcome ⟨{ f with stack, locals }, m⟩ := by
  cases h with
  | loaded hread =>
      apply thenNext_of_ok
      refine (lift_of_ok (a := ⟨f, m⟩) hread).trans ?_
      rw [Thread.onStack_apply, pushValue_apply]
  | unread hread => exact thenNext_of_error (lift_of_error (a := ⟨f, m⟩) hread)
  | stored hpop hwrite =>
      exact thenNext_of_ok ((storeLocal_of_popKind hpop).trans (lift_of_ok hwrite))
  | unpopped hpop => exact thenNext_of_error (onStack_of_error hpop)
  | unwritten hpop hwrite =>
      exact thenNext_of_error ((storeLocal_of_popKind hpop).trans (lift_of_error hwrite))
  | @incremented index delta value _ hget hset =>
      have hincrement : Exec.increment index delta ⟨f, m⟩ =
          (liftM (f.locals.setInt index (value + delta)) >>= setLocals) ⟨f, m⟩ :=
        lift_of_ok (a := ⟨f, m⟩) hget
      exact thenNext_of_ok (hincrement.trans (lift_of_ok hset))
  | uncounted hget => exact thenNext_of_error (lift_of_error (a := ⟨f, m⟩) hget)

end Exec

namespace Instruction

variable {s : OperandStack} {l : Locals}

theorem access_move (move : Movement) (kind : Kind) (index : Nat) :
    ∃ outcome s' l', (move.instruction kind index).Access s l outcome s' l' := by
  cases move with
  | load =>
      cases hread : l.read kind index with
      | ok value => exact ⟨_, _, _, .loaded hread⟩
      | error fault => exact ⟨_, _, _, .unread hread⟩
  | store =>
      cases hpop : popKind kind s with
      | error fault s' => exact ⟨_, _, _, .unpopped hpop⟩
      | ok value s' =>
          cases hwrite : l.write index value with
          | ok l' => exact ⟨_, _, _, .stored hpop hwrite⟩
          | error fault => exact ⟨_, _, _, .unwritten hpop hwrite⟩

theorem access_increment (index : Nat) (delta : Int32) :
    ∃ outcome s' l', (increment index delta).Access s l outcome s' l' := by
  cases hget : l.getInt index with
  | error fault => exact ⟨_, _, _, .uncounted hget⟩
  | ok value =>
      obtain ⟨l', hset⟩ := Locals.setInt_of_getInt hget (value + delta)
      exact ⟨_, _, _, .incremented hget hset⟩

theorem Spelled.access {i : Instruction} {bytes : List UInt8} (h : i.Spelled bytes) :
    ∃ outcome s' l', i.Access s l outcome s' l' := by
  cases h with
  | direct move kind _ => exact access_move move kind _
  | indexed move kind _ => exact access_move move kind _
  | wide move kind _ => exact access_move move kind _
  | increment _ _ _ => exact access_increment _ _
  | wideIncrement _ _ _ => exact access_increment _ _

end Instruction

namespace Frame

variable {f : Frame} {i : Instruction} {bytes : List UInt8} {length : Nat}
  {outcome outcome' : Except Fault Unit} {stack stack' : OperandStack} {locals locals' : Locals}

/-- Where an access stands, it is what the next step does. -/
theorem does_of_access (hspelled : i.Spelled bytes) (hcode : f.Faces bytes)
    (h : i.Access f.stack f.locals outcome stack locals) :
    f.Does bytes.length outcome stack locals := by
  intro load tracing m
  have hnext := hcode.next (Decoder.spelled_reads hspelled)
  obtain ⟨log, hstep⟩ := Exec.step_eq_execute hnext load tracing m
  have hexecute := Exec.execute_of_access
    (f := { f with current := f.pc, pc := f.pc + bytes.length }) (m := { m with log }) h load
  exact ⟨log, (hstep f.stack).trans hexecute⟩

/-- A step ends in one way. -/
theorem Does.unique (h : f.Does length outcome stack locals)
    (h' : f.Does length outcome' stack' locals') :
    outcome = outcome' ∧ stack = stack' ∧ locals = locals' := by
  obtain ⟨log, hstep⟩ := h (fun _ => throw .outOfFuel) false Machine.empty
  obtain ⟨log', hstep'⟩ := h' (fun _ => throw .outOfFuel) false Machine.empty
  have hsame := hstep.symm.trans hstep'
  cases outcome with
  | ok u =>
      cases outcome' with
      | error fault => cases hsame
      | ok u' =>
          cases hsame
          exact ⟨rfl, rfl, rfl⟩
  | error fault =>
      cases outcome' with
      | ok u' => cases hsame
      | error fault' =>
          cases hsame
          exact ⟨rfl, rfl, rfl⟩

theorem Faces.append_left {bytes' : List UInt8} (h : f.Faces (bytes ++ bytes')) :
    f.Faces bytes :=
  (List.prefix_append bytes bytes').trans h

theorem Faces.append_right {bytes' : List UInt8} (h : f.Faces (bytes ++ bytes')) :
    (f.past bytes.length stack locals).Faces bytes' := by
  obtain ⟨rest, hrest⟩ := h
  refine ⟨rest, ?_⟩
  change bytes' ++ rest = f.method.code.toList.drop (f.pc + bytes.length)
  rw [← List.drop_drop, ← hrest, List.append_assoc, List.drop_left]

theorem Does.of_store {kind : Kind} {index : Nat}
    (hspelled : (Instruction.store kind index).Spelled bytes) (hcode : f.Faces bytes)
    (h : f.Does bytes.length (.ok ()) stack locals) :
    ∃ value, popKind kind f.stack = .ok value stack ∧
      f.locals.write index value = .ok locals := by
  obtain ⟨outcome', stack', locals', haccess⟩ := hspelled.access (s := f.stack) (l := f.locals)
  obtain ⟨rfl, rfl, rfl⟩ := h.unique (does_of_access hspelled hcode haccess)
  cases haccess with
  | stored hpop hwrite => exact ⟨_, hpop, hwrite⟩

end Frame

/-- However an access to a variable is spelled, it ends in the same way and leaves the same stack
and the same variables.  An increment adds in the integers, reduced to a number that fits.  A store
that is followed by a load of the same kind and index restores the stack. -/
theorem Instruction.spellings_agree :
    (∀ (i : Instruction) (bytes bytes' : List UInt8), i.Spelled bytes → i.Spelled bytes' →
      ∀ f f' : Frame, f.Faces bytes → f'.Faces bytes' → f.stack = f'.stack →
        f.locals = f'.locals →
        ∃ outcome stack locals, f.Does bytes.length outcome stack locals ∧
          f'.Does bytes'.length outcome stack locals) ∧
    (∀ (index : Nat) (delta : Int32) (bytes : List UInt8), (increment index delta).Spelled bytes →
      ∀ f : Frame, f.Faces bytes →
        (∀ value, f.locals.getInt index = .ok value →
          ∃ locals, f.Does bytes.length (.ok ()) f.stack locals ∧
            ∀ other, locals.get other =
              if other = index then .ok (.int (Int32.ofInt (value.toInt + delta.toInt)))
              else f.locals.get other) ∧
        ∀ fault, f.locals.getInt index = .error fault →
          f.Does bytes.length (.error fault) f.stack f.locals) ∧
    ∀ (kind : Kind) (index : Nat) (bytes bytes' : List UInt8),
      (store kind index).Spelled bytes → (load kind index).Spelled bytes' →
      ∀ (f : Frame) (stack : OperandStack) (locals : Locals), f.Faces (bytes ++ bytes') →
        f.Does bytes.length (.ok ()) stack locals →
          (f.past bytes.length stack locals).Does bytes'.length (.ok ()) f.stack locals := by
  refine ⟨?_, ?_, ?_⟩
  · intro i bytes bytes' hspelled hspelled' f f' hcode hcode' hstack hlocals
    -- how an access ends depends on the stack and the variables, not on the spelling
    obtain ⟨outcome, stack, locals, haccess⟩ := hspelled.access (s := f.stack) (l := f.locals)
    refine ⟨outcome, stack, locals, Frame.does_of_access hspelled hcode haccess, ?_⟩
    rw [hstack, hlocals] at haccess
    exact Frame.does_of_access hspelled' hcode' haccess
  · intro index delta bytes hspelled f hcode
    constructor
    · intro value hget
      obtain ⟨locals, hset⟩ := Locals.setInt_of_getInt hget (value + delta)
      refine ⟨locals, Frame.does_of_access hspelled hcode (.incremented hget hset), ?_⟩
      rw [Int32.ofInt_add, Int32.ofInt_toInt, Int32.ofInt_toInt]
      exact Locals.get_of_set hset
    · intro fault hget
      exact Frame.does_of_access hspelled hcode (.uncounted hget)
  · intro kind index bytes bytes' hstore hload f stack locals hcode hdoes
    -- the value that was popped is read again and pushed back
    obtain ⟨value, hpop, hwrite⟩ := hdoes.of_store hstore hcode.append_left
    have hread : locals.read kind index = .ok value := by
      rw [← kind_of_popKind hpop]
      exact Locals.read_of_write hwrite
    have haccess := Instruction.Access.loaded (s := stack) hread
    rw [append_of_popKind hpop] at haccess
    exact Frame.does_of_access hload hcode.append_right haccess

namespace LongVariable

/-- `lstore_2; wide lload 2; lload_2; iinc 0, -1; wide iinc 0, -1`. -/
def method : Method :=
  ⟨"A", "run", "(IIJ)V", .ofWord 0x0009, ⟨[.int, .int, .long], .void⟩, 2, 4,
    #[0x41, 0xC4, 0x16, 0, 2, 0x20, 0x84, 0, 0xFF, 0xC4, 0x84, 0, 0, 0xFF, 0xFF], [], rfl⟩

def frame (pc : Nat) (stack : OperandStack) (locals : Locals) : Frame :=
  { Frame.enter method (.mk ⟨"A", .ofWord 0x0021, [], [], [method]⟩ none []) ⟨"A", ⟨#[]⟩⟩ [] with
    pc, stack, locals }

/-- A wide value is stored in the last two variables, and an increment passes the least number. -/
theorem spellings_agree_there :
    (∃ outcome stack locals,
      (frame 1 .empty (.zeroed 3)).Does 4 outcome stack locals ∧
        (frame 5 .empty (.zeroed 3)).Does 1 outcome stack locals) ∧
    (∃ locals, (frame 6 .empty ⟨#[.int Int32.minValue]⟩).Does 3 (.ok ()) .empty locals ∧
      locals.get 0 = .ok (.int Int32.maxValue)) ∧
    (frame 9 .empty ⟨#[.reference none]⟩).Does 6
      (.error (.illegal .primitiveExpected)) .empty ⟨#[.reference none]⟩ ∧
    (frame 1 .empty ⟨#[.int 0, .int 0, .int 1, .int 2]⟩).Does 4 (.ok ())
      ⟨[.int 2, .int 1]⟩ ⟨#[.int 0, .int 0, .int 1, .int 2]⟩ := by
  have hwide : (Instruction.load .long 2).Spelled [0xC4, 0x16, 0, 2] :=
    .wide .load .long (by decide)
  have hdirect : (Instruction.load .long 2).Spelled [0x20] := .direct .load .long (by decide)
  have hstore : (Instruction.store .long 2).Spelled [0x41] := .direct .store .long (by decide)
  have hcount : (Instruction.increment 0 (-1)).Spelled [0x84, 0, 0xFF] :=
    .increment (by decide) (by decide) (by decide)
  have hcountWide : (Instruction.increment 0 (-1)).Spelled [0xC4, 0x84, 0, 0, 0xFF, 0xFF] :=
    .wideIncrement (by decide) (by decide) (by decide)
  have hpop : popKind .long ⟨[.int 2, .int 1]⟩ = .ok (.long 0x100000002) .empty := rfl
  have hstored : (frame 0 ⟨[.int 2, .int 1]⟩ (.zeroed 4)).Does 1 (.ok ()) .empty
      ⟨#[.int 0, .int 0, .int 1, .int 2]⟩ :=
    Frame.does_of_access hstore (by decide) (.stored hpop (by decide))
  refine ⟨?_, ?_, ?_, ?_⟩
  · exact Instruction.spellings_agree.1 _ _ _ hwide hdirect (frame 1 .empty (.zeroed 3))
      (frame 5 .empty (.zeroed 3)) (by decide) (by decide) rfl rfl
  · obtain ⟨locals, hdoes, hget⟩ := (Instruction.spellings_agree.2.1 _ _ _ hcount
      (frame 6 .empty ⟨#[.int Int32.minValue]⟩) (by decide)).1 Int32.minValue rfl
    exact ⟨locals, hdoes, (hget 0).trans (by decide)⟩
  · exact (Instruction.spellings_agree.2.1 _ _ _ hcountWide
      (frame 9 .empty ⟨#[.reference none]⟩) (by decide)).2 _ rfl
  · exact Instruction.spellings_agree.2.2 _ _ _ _ hstore hwide
      (frame 0 ⟨[.int 2, .int 1]⟩ (.zeroed 4)) _ _ (by decide) hstored

end LongVariable
end Bytecode
