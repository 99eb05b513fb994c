import Bytecode.Proofs.Contract.Faults

/-!
# Faults of work on values

Taking operands off a stack, computing with them, reading variables and storing elements fail with
ordinary faults.
-/

namespace Bytecode

variable {α β : Type}

/-!
# Values, variables and elements
-/

theorem Slot.toInt_fails (slot : Slot) : FailsWith Fault.Ordinary slot.toInt := by
  cases slot with
  | int value => exact .ok _
  | reference target => exact .error nofun

theorem Slot.toReference_fails (slot : Slot) : FailsWith Fault.Ordinary slot.toReference := by
  cases slot with
  | int value => exact .error nofun
  | reference target => exact .ok _

theorem Value.toReference_fails (value : Value) : FailsWith Fault.Ordinary value.toReference := by
  cases value <;> first | exact .ok _ | exact .error nofun

namespace Locals

theorem get_fails (l : Locals) (index : Nat) : FailsWith Fault.Ordinary (l.get index) := by
  unfold get
  split
  · exact .ok _
  · exact .error nofun

theorem set_fails (l : Locals) (index : Nat) (slot : Slot) :
    FailsWith Fault.Ordinary (l.set index slot) := by
  unfold set
  split
  · exact .ok _
  · exact .error nofun

theorem getInt_fails (l : Locals) (index : Nat) : FailsWith Fault.Ordinary (l.getInt index) :=
  (l.get_fails index).bind fun slot => slot.toInt_fails

theorem setInt_fails (l : Locals) (index : Nat) (value : Int32) :
    FailsWith Fault.Ordinary (l.setInt index value) :=
  l.set_fails index _

theorem setLong_fails (l : Locals) (index : Nat) (value : Int64) :
    FailsWith Fault.Ordinary (l.setLong index value) :=
  .ite (.error nofun) ((l.setInt_fails index _).bind fun l => l.setInt_fails _ _)

theorem read_fails (l : Locals) (kind : Kind) (index : Nat) :
    FailsWith Fault.Ordinary (l.read kind index) := by
  have hlong : FailsWith Fault.Ordinary (l.getLong index) :=
    (l.getInt_fails index).bind fun _ => (l.getInt_fails _).bind fun _ => .pure _
  cases kind with
  | int => exact (l.getInt_fails index).map _
  | long => exact hlong.map _
  | float => exact FailsWith.map ((l.getInt_fails index).bind fun _ => .pure _) _
  | double => exact FailsWith.map (hlong.bind fun _ => .pure _) _
  | reference =>
      exact FailsWith.map ((l.get_fails index).bind fun slot => slot.toReference_fails) _

theorem write_fails (l : Locals) (index : Nat) (value : Value) :
    FailsWith Fault.Ordinary (l.write index value) := by
  cases value with
  | int value => exact l.setInt_fails index value
  | long value => exact l.setLong_fails index value
  | float word => exact l.setInt_fails index _
  | double word => exact l.setLong_fails index _
  | reference target => exact l.set_fails index _

end Locals

namespace Store

theorem position_fails (s : Store) (index : Int32) :
    FailsWith Fault.Ordinary (s.position index) :=
  .ite (.error nofun) (.ok _)

theorem load_fails (s : Store) (index : Int32) : FailsWith Fault.Ordinary (s.load index) := by
  refine (s.position_fails index).bind fun i => ?_
  split
  · exact .pure _
  · exact .error nofun

theorem store_fails (s : Store) (index : Int32) (value : Value) :
    FailsWith Fault.Ordinary (s.store index value) := by
  have hnarrow : FailsWith Fault.Ordinary (s.layout.narrow value) := by
    unfold Layout.narrow
    split
    · split <;> exact .ok _
    · exact .error nofun
  exact (s.position_fails index).bind fun _ => hnarrow.bind fun _ => .pure _

theorem copyInto_fails (source target : Store) (sourceStart targetStart length : Int32) :
    FailsWith Fault.Ordinary (source.copyInto target sourceStart targetStart length) :=
  .ite (.error nofun) (.ite (.error nofun) (.ite (.error nofun) (.ite (.ok _) (.ok _))))

end Store

theorem Object.asInstance_fails (o : Object) : FailsWith Fault.Ordinary o.asInstance := by
  cases o with
  | ofInstance i => exact .ok i
  | ofArray a => exact .error nofun

theorem Object.asArray_fails (o : Object) : FailsWith Fault.Ordinary o.asArray := by
  cases o with
  | ofInstance i => exact .error nofun
  | ofArray a => exact .ok a

/-!
# Members and texts
-/

theorem Class.fieldPosition_fails (c : Class) (owner name descriptor : String) :
    FailsWith Fault.Ordinary (c.fieldPosition owner name descriptor) := by
  unfold fieldPosition
  dsimp only
  split
  · exact .ok _
  · exact .error nofun

theorem Class.staticField_fails (c : Class) (name descriptor : String) :
    FailsWith Fault.Ordinary (c.staticField name descriptor) := by
  unfold staticField
  split
  · exact .ok _
  · split
    · exact .ok _
    · exact .error nofun

theorem Class.select_fails (c : Class) (method : Method) :
    FailsWith Fault.Ordinary (c.select method) := by
  unfold select
  split
  · exact .error nofun
  · exact .ite (.error nofun) (.ok _)

theorem Class.parent_of_isSubclassOf {c other : Class} (h : c.isSubclassOf other = true) :
    ∃ p, c.parent = some p := by
  obtain ⟨d, parent, interfaces⟩ := c
  cases parent with
  | none => simp [isSubclassOf, superclasses, ancestors] at h
  | some p => exact ⟨p, rfl⟩

/-- A caller below another class has a superclass. -/
theorem Exec.bindSuper_fails (caller referenced : Class) (method : Method) :
    FailsWith Fault.Ordinary (bindSuper caller referenced method) := by
  unfold bindSuper
  split
  next hbinds =>
      obtain ⟨p, hp⟩ := Class.parent_of_isSubclassOf hbinds.2.2.2
      rw [hp]
      dsimp only
      split
      · exact .error nofun
      · exact .ok _
  next => exact .ok _

theorem Frame.jump_fails (f : Frame) (offset : Int32) : FailsWith Fault.Ordinary (f.jump offset) :=
  .ite (.error nofun) (.ok _)

theorem Frame.jump_kept {f f' : Frame} {offset : Int32} (h : f.jump offset = .ok f') :
    f'.pool = f.pool ∧ f'.cls = f.cls := by
  unfold Frame.jump at h
  dsimp only at h
  split at h
  · cases h
  · cases h
    exact ⟨rfl, rfl⟩

theorem DecodeError.fault_ordinary (method : Method) (e : DecodeError) :
    (e.fault method).Ordinary := by
  cases e <;> nofun

theorem Thread.frameFor_fails (m : Machine) (method : Method) (arguments : List Slot) :
    FailsWith Fault.Plain (frameFor m method arguments) := by
  unfold frameFor
  split
  · exact .error nofun
  · split
    · exact .error nofun
    · exact .ok _

namespace Machine

theorem encodeText_fails (descriptor : String) (units : List UInt16) :
    FailsWith Fault.Ordinary (encodeText descriptor units) :=
  .ite (.ok _) (.ite (.ite (.ok _) (.ok _)) (.error nofun))

theorem decodeText_fails (m : Machine) (coder : Int32) (store : Store) :
    FailsWith Fault.Ordinary (m.decodeText coder store) := by
  unfold decodeText
  split
  · exact .ok _
  · exact .ite (.ok _) (.ok _)
  · exact .error nofun

theorem textOf_fails (m : Machine) (address : Nat) :
    FailsWith Fault.Ordinary (m.textOf address) := by
  unfold textOf
  split
  · refine (Object.asInstance_fails _).bind fun i => ?_
    split
    · refine (Value.toReference_fails _).bind fun target => ?_
      split
      · exact .pure _
      · dsimp only
        split
        · exact (Object.asArray_fails _).bind fun a => m.decodeText_fails _ _
        · exact .error nofun
    · exact .error nofun
  · exact .error nofun

end Machine

namespace Print

theorem objectText_fails (m : Machine) (descriptor : String) (address : Nat) :
    FailsWith Fault.Ordinary (objectText m descriptor address) := by
  unfold objectText
  split
  · refine .ite ?_ (.ite (m.textOf_fails address) (.pure _))
    exact (Object.asArray_fails _).bind fun a => .ite (.pure _) (.error nofun)
  · exact .error nofun

theorem valueText_fails (m : Machine) (t : ValueType) (descriptor : String) (value : Value) :
    FailsWith Fault.Ordinary (valueText m t descriptor value) := by
  unfold valueText
  split
  · split <;> exact .ok _
  · exact .ok _
  · exact .ok _
  · exact .ok _
  · exact .ok _
  · exact objectText_fails m descriptor _

end Print

/-!
# Operand stacks
-/

namespace OperandStack

def Fails (x : StackM α) : Prop :=
  ∀ s f s', x s = .error f s' → f.Ordinary

namespace Fails

theorem pure (a : α) : Fails (pure a) := by
  intro s f s' h
  cases h

theorem bind {x : StackM α} {f : α → StackM β} (hx : Fails x) (hf : ∀ a, Fails (f a)) :
    Fails (x >>= f) := by
  intro s e s' h
  cases hxs : x s with
  | ok a t =>
      rw [bind_of_ok hxs] at h
      exact hf a t e s' h
  | error e' t =>
      rw [bind_of_error hxs] at h
      cases h
      exact hx s e s' hxs

theorem map {x : StackM α} (hx : Fails x) (f : α → β) : Fails (f <$> x) := by
  rw [map_eq_pure_bind]
  exact hx.bind fun a => .pure _

theorem throw {f : Fault} (h : f.Ordinary) : Fails (throw f : StackM α) := by
  intro s e s' heq
  cases heq
  exact h

theorem throw_of {x : Except Fault α} {f : Fault} (hx : FailsWith Fault.Ordinary x)
    (h : x = .error f) : Fails (MonadExcept.throw f : StackM β) :=
  throw (hx f h)

end Fails

theorem push_fails (slot : Slot) : Fails (push slot) := by
  intro s f s' h
  cases h

theorem pop_fails : Fails pop := by
  intro s f s' h
  simp only [pop, get_bind] at h
  cases hslots : s.slots with
  | nil =>
      rw [hslots] at h
      cases h
      nofun
  | cons slot rest =>
      rw [hslots] at h
      cases h

theorem peek_fails (depth : Nat) : Fails (peek depth) := by
  intro s f s' h
  simp only [peek, get_bind] at h
  cases hslot : s.slots[depth]? with
  | none =>
      rw [hslot] at h
      cases h
      nofun
  | some slot =>
      rw [hslot] at h
      cases h

theorem popSlots_fails (count : Nat) : Fails (popSlots count) := by
  intro s f s' h
  by_cases hshort : s.size < count
  · simp only [popSlots, get_bind, hshort, if_true] at h
    cases h
    nofun
  · simp only [popSlots, get_bind, hshort, if_false] at h
    cases h

theorem popInt_fails : Fails popInt := by
  refine pop_fails.bind fun slot => ?_
  split
  next => exact .pure _
  next e he => exact .throw_of slot.toInt_fails he

theorem popFloat_fails : Fails popFloat :=
  popInt_fails.bind fun _ => .pure _

theorem popLong_fails : Fails popLong :=
  popInt_fails.bind fun _ => popInt_fails.bind fun _ => .pure _

theorem popDouble_fails : Fails popDouble :=
  popLong_fails.bind fun _ => .pure _

theorem popReference_fails : Fails popReference := by
  refine pop_fails.bind fun slot => ?_
  split
  next => exact .pure _
  next e he => exact .throw_of slot.toReference_fails he

theorem popKind_fails (kind : Kind) : Fails (popKind kind) := by
  cases kind with
  | int => exact popInt_fails.map _
  | long => exact popLong_fails.map _
  | float => exact popFloat_fails.map _
  | double => exact popDouble_fails.map _
  | reference => exact popReference_fails.map _

theorem popValue_fails (t : ValueType) : Fails (popValue t) := by
  unfold popValue
  split
  · exact popKind_fails _
  · exact .throw nofun

theorem popObject_fails (use : String) : Fails (popObject use) := by
  refine popReference_fails.bind fun target => ?_
  cases target with
  | some address => exact .pure _
  | none => exact .throw nofun

theorem pushLong_fails (value : Int64) : Fails (pushLong value) :=
  (push_fails _).bind fun _ => push_fails _

theorem pushValue_fails (value : Value) : Fails (pushValue value) := by
  cases value with
  | int value => exact push_fails _
  | long value => exact pushLong_fails value
  | float word => exact push_fails _
  | double word => exact pushLong_fails _
  | reference target => exact push_fails _

end OperandStack

/-!
# Instructions on the stack alone
-/

open OperandStack

theorem Shuffle.apply_fails (move : Shuffle) : Fails move.apply := by
  -- each move pops some slots and pushes some back
  have hpushes (slots : List Slot) {k : StackM Unit} (hk : Fails k) :
      Fails (slots.foldr (fun slot rest => push slot >>= fun _ => rest) k) := by
    induction slots with
    | nil => exact hk
    | cons slot slots ih => exact (push_fails slot).bind fun _ => ih
  cases move with
  | pop => exact pop_fails.bind fun _ => .pure _
  | pop2 => exact (popSlots_fails 2).bind fun _ => .pure _
  | dup => exact (peek_fails 0).bind fun a => push_fails a
  | dupX1 => exact pop_fails.bind fun a => pop_fails.bind fun b => hpushes [a, b] (push_fails a)
  | dupX2 =>
      exact pop_fails.bind fun a => pop_fails.bind fun b => pop_fails.bind fun c =>
        hpushes [a, c, b] (push_fails a)
  | dup2 =>
      exact (peek_fails 0).bind fun a => (peek_fails 1).bind fun b => hpushes [b] (push_fails a)
  | dup2X1 =>
      exact pop_fails.bind fun a => pop_fails.bind fun b => pop_fails.bind fun c =>
        hpushes [b, a, c, b] (push_fails a)
  | dup2X2 =>
      exact pop_fails.bind fun a => pop_fails.bind fun b => pop_fails.bind fun c =>
        pop_fails.bind fun d => hpushes [b, a, d, c, b] (push_fails a)
  | swap => exact pop_fails.bind fun a => pop_fails.bind fun b => hpushes [a] (push_fails b)

theorem IntegerOp.onInt_fails (op : IntegerOp) (a b : Int32) :
    FailsWith Fault.Ordinary (op.onInt a b) := by
  cases op with
  | div => exact .ite (.error nofun) (.ok _)
  | rem => exact .ite (.error nofun) (.ok _)
  | _ => exact .ok _

theorem IntegerOp.onLong_fails (op : IntegerOp) (a b : Int64) :
    FailsWith Fault.Ordinary (op.onLong a b) := by
  cases op with
  | div => exact .ite (.error nofun) (.ok _)
  | rem => exact .ite (.error nofun) (.ok _)
  | _ => exact .ok _

theorem IntegerOp.applyInt_fails (op : IntegerOp) : Fails op.applyInt := by
  refine popInt_fails.bind fun b => popInt_fails.bind fun a => ?_
  split
  next => exact push_fails _
  next e he => exact .throw_of (op.onInt_fails a b) he

theorem IntegerOp.applyLong_fails (op : IntegerOp) : Fails op.applyLong := by
  refine popLong_fails.bind fun b => popLong_fails.bind fun a => ?_
  split
  next => exact pushLong_fails _
  next e he => exact .throw_of (op.onLong_fails a b) he

theorem ShiftOp.applyInt_fails (op : ShiftOp) : Fails op.applyInt :=
  popInt_fails.bind fun _ => popInt_fails.bind fun _ => push_fails _

theorem ShiftOp.applyLong_fails (op : ShiftOp) : Fails op.applyLong :=
  popInt_fails.bind fun _ => popLong_fails.bind fun _ => pushLong_fails _

theorem FloatOp.applyFloat_fails (op : FloatOp) : Fails op.applyFloat :=
  popFloat_fails.bind fun _ => popFloat_fails.bind fun _ => push_fails _

theorem FloatOp.applyDouble_fails (op : FloatOp) : Fails op.applyDouble :=
  popDouble_fails.bind fun _ => popDouble_fails.bind fun _ => pushLong_fails _

theorem Number.negate_fails (number : Number) : Fails number.negate := by
  cases number with
  | int => exact popInt_fails.bind fun _ => push_fails _
  | long => exact popLong_fails.bind fun _ => pushLong_fails _
  | float => exact popFloat_fails.bind fun _ => push_fails _
  | double => exact popDouble_fails.bind fun _ => pushLong_fails _

theorem Conversion.apply_fails (conversion : Conversion) : Fails conversion.apply := by
  cases conversion with
  | intToByte => exact popInt_fails.bind fun _ => push_fails _
  | intToChar => exact popInt_fails.bind fun _ => push_fails _
  | intToShort => exact popInt_fails.bind fun _ => push_fails _
  | between source target =>
      -- a number of the one kind is popped and one of the other kind pushed
      cases source <;> cases target <;>
        first
        | exact popInt_fails.bind fun _ => push_fails _
        | exact popInt_fails.bind fun _ => pushLong_fails _
        | exact popLong_fails.bind fun _ => push_fails _
        | exact popLong_fails.bind fun _ => pushLong_fails _
        | exact popFloat_fails.bind fun _ => push_fails _
        | exact popFloat_fails.bind fun _ => pushLong_fails _
        | exact popDouble_fails.bind fun _ => push_fails _
        | exact popDouble_fails.bind fun _ => pushLong_fails _

theorem OperandStack.compareLongs_fails : Fails compareLongs :=
  popLong_fails.bind fun _ => popLong_fails.bind fun _ => push_fails _

theorem OperandStack.compareFloats_fails (unordered : Int32) : Fails (compareFloats unordered) :=
  popFloat_fails.bind fun _ => popFloat_fails.bind fun _ => push_fails _

theorem OperandStack.compareDoubles_fails (unordered : Int32) : Fails (compareDoubles unordered) :=
  popDouble_fails.bind fun _ => popDouble_fails.bind fun _ => push_fails _

theorem Exec.popLengths_fails (count : Nat) : Fails (popLengths count) := by
  induction count with
  | zero => exact .pure _
  | succ count ih => exact popInt_fails.bind fun _ => ih.bind fun _ => .pure _

end Bytecode
