import Bytecode.Proofs.Execution.SuperCalls

/-!
# Addresses

An instruction finds the addresses of its frame as its decoding left them, and only a branch that is
taken changes them.  What an instruction asks of the call stack can be told from the instruction.
-/

namespace Bytecode

open OperandStack

variable {α β : Type}

/-!
# Work that stays where it is
-/

/-- The other frame runs the same method at the same addresses. -/
structure Frame.SamePlace (f f' : Frame) : Prop where
  method : f'.method = f.method
  pc : f'.pc = f.pc
  current : f'.current = f.current

theorem Frame.SamePlace.refl (f : Frame) : f.SamePlace f :=
  ⟨rfl, rfl, rfl⟩

theorem Frame.SamePlace.trans {f f' f'' : Frame} (h : f.SamePlace f') (h' : f'.SamePlace f'') :
    f.SamePlace f'' :=
  ⟨h'.method.trans h.method, h'.pc.trans h.pc, h'.current.trans h.current⟩

namespace Exec

theorem fail_apply (f : Fault) (a : Activation) :
    (Bytecode.fail f : Exec α) a = .error (.fault f) a := rfl

/-- When the work ends well, its frame is where it was. -/
def Stays (x : Exec α) : Prop :=
  ∀ ⦃a b a'⦄, x a = .ok b a' → a.frame.SamePlace a'.frame

namespace Stays

theorem pure (b : α) : Stays (pure b) := by
  intro a _ _ h
  cases h
  exact .refl a.frame

theorem bind {x : Exec α} {f : α → Exec β} (hx : Stays x) (hf : ∀ b, Stays (f b)) :
    Stays (x >>= f) := by
  intro a c a'' h
  obtain ⟨b, a', hfirst, hrest⟩ := bind_eq_ok h
  exact (hx hfirst).trans (hf b hrest)

theorem map {x : Exec α} (f : α → β) (hx : Stays x) : Stays (do return f (← x)) :=
  hx.bind fun b => pure (f b)

theorem ite {c : Prop} [Decidable c] {x y : Exec α} (hx : Stays x) (hy : Stays y) :
    Stays (if c then x else y) := by
  split
  · exact hx
  · exact hy

theorem fail (f : Fault) : Stays (Bytecode.fail f : Exec α) := by
  intro a b a' h
  rw [fail_apply] at h
  cases h

theorem onStack (x : StackM α) : Stays (liftM x : Exec α) := by
  intro a b a' h
  obtain ⟨stack, -, rfl⟩ := onStack_eq_ok h
  exact ⟨rfl, rfl, rfl⟩

theorem onMachine (x : MachineM α) : Stays (liftM x : Exec α) := by
  intro a b a' h
  obtain ⟨m, -, rfl⟩ := onMachine_eq_ok h
  exact .refl a.frame

theorem onWorkspace (x : NativeM α) : Stays (liftM x : Exec α) := by
  intro a b a' h
  change Activation.onWorkspace x a = _ at h
  unfold Activation.onWorkspace at h
  cases hx : x ⟨a.frame.stack, a.machine⟩ with
  | ok c w =>
      simp only [hx] at h
      cases h
      exact ⟨rfl, rfl, rfl⟩
  | error e w =>
      simp only [hx] at h
      cases h

theorem lift (x : Except Fault α) : Stays (liftM x : Exec α) := by
  intro a b a' h
  obtain ⟨-, rfl⟩ := lift_eq_ok h
  exact .refl _

theorem liftMalformed (x : Except Malformed α) : Stays (liftM x : Exec α) := by
  intro a b a' h
  obtain ⟨-, rfl⟩ := liftMalformed_eq_ok h
  exact .refl _

theorem frame_bind {f : Frame → Exec α} (hf : ∀ frame, Stays (f frame)) :
    Stays (Exec.frame >>= f) :=
  fun a _ _ h => hf a.frame h

theorem get_bind {f : Activation → Exec α} (hf : ∀ a, Stays (f a)) : Stays (get >>= f) :=
  fun a _ _ h => hf a h

theorem setLocals (locals : Locals) : Stays (setLocals locals) := by
  intro a _ _ h
  cases h
  exact ⟨rfl, rfl, rfl⟩

theorem thenNext {x : Exec Unit} (hx : Stays x) : Stays (thenNext x) :=
  hx.bind fun _ => pure _

theorem pushObject (x : MachineM Nat) : Stays (do pushReference (some (← x))) :=
  (onMachine x).bind fun _ => onStack _

end Stays

/-!
# Variables, objects and fields
-/

theorem loadLocal_stays (kind : Kind) (index : Nat) : Stays (loadLocal kind index) :=
  .frame_bind fun f => (Stays.lift (f.locals.read kind index)).bind fun _ => .onStack _

theorem storeLocal_stays (kind : Kind) (index : Nat) : Stays (storeLocal kind index) :=
  (Stays.onStack (popKind kind)).bind fun _ => .frame_bind fun _ =>
    (Stays.lift _).bind fun _ => .setLocals _

theorem increment_stays (index : Nat) (delta : Int32) : Stays (increment index delta) :=
  .frame_bind fun f => (Stays.lift (f.locals.getInt index)).bind fun _ =>
    (Stays.lift _).bind fun _ => .setLocals _

theorem arrayLoad_stays : Stays arrayLoad :=
  (Stays.onStack popInt).bind fun _ => (Stays.onStack (popObject _)).bind fun _ =>
    (Stays.onMachine _).bind fun _ => .onStack _

theorem arrayStore_stays (kind : Kind) : Stays (arrayStore kind) :=
  (Stays.onStack (popKind kind)).bind fun _ => (Stays.onStack popInt).bind fun _ =>
    (Stays.onStack (popObject _)).bind fun _ => .onMachine _

theorem arrayLength_stays : Stays arrayLength :=
  (Stays.onStack (popObject _)).bind fun _ => (Stays.onMachine _).bind fun _ => .onStack _

theorem newObject_stays (load : Loader) (index : UInt16) : Stays (newObject load index) :=
  .frame_bind fun f => (Stays.onMachine (f.pool.resolveClass load index)).bind fun _ =>
    .ite (.fail _) (.pushObject _)

theorem newArray_stays (load : Loader) (element : Element) : Stays (newArray load element) :=
  (Stays.onStack popInt).bind fun _ => .pushObject _

theorem newReferenceArray_stays (load : Loader) (index : UInt16) :
    Stays (newReferenceArray load index) := by
  have hrest (name : String) :
      Stays (do
        let length ← popInt
        pushReference (some (← Machine.newArray load name length))) :=
    (Stays.onStack popInt).bind fun _ => .pushObject _
  refine .frame_bind fun f =>
    (Stays.liftMalformed (f.pool.className index)).bind fun component => ?_
  exact .ite (hrest _) ((Stays.onMachine (load.loadClass component)).bind fun _ => hrest _)

theorem newMultiArray_stays (load : Loader) (index : UInt16) (dimensions : Nat) :
    Stays (newMultiArray load index dimensions) :=
  .frame_bind fun f => (Stays.liftMalformed (f.pool.className index)).bind fun _ =>
    .ite (.fail _) ((Stays.onStack (popLengths dimensions)).bind fun _ => .pushObject _)

theorem checkCast_stays (load : Loader) (index : UInt16) : Stays (checkCast load index) := by
  refine .frame_bind fun f => (Stays.liftMalformed (f.pool.className index)).bind fun target =>
    (Stays.onStack popReference).bind fun reference => ?_
  cases reference with
  | none => exact .onStack _
  | some address =>
      exact (Stays.onMachine (Machine.isInstanceOf load address target)).bind fun _ =>
        .ite ((Stays.onMachine (Machine.object address)).bind fun _ => .fail _) (.onStack _)

theorem instanceOf_stays (load : Loader) (index : UInt16) : Stays (instanceOf load index) := by
  refine .frame_bind fun f => (Stays.liftMalformed (f.pool.className index)).bind fun target =>
    (Stays.onStack popReference).bind fun reference => ?_
  cases reference with
  | none => exact .onStack _
  | some address =>
      exact (Stays.onMachine (Machine.isInstanceOf load address target)).bind fun _ => .onStack _

theorem getStatic_stays (load : Loader) (index : UInt16) : Stays (getStatic load index) := by
  refine .frame_bind fun f => (Stays.onMachine (f.pool.resolveStatic load index)).bind fun _ =>
    .get_bind fun a => ?_
  split
  · exact .onStack _
  · exact .fail _

theorem putStatic_stays (load : Loader) (index : UInt16) : Stays (putStatic load index) := by
  refine .frame_bind fun f => (Stays.onMachine (f.pool.resolveStatic load index)).bind fun field =>
    (Stays.onStack (popValue field.type)).bind fun value => ?_
  intro a _ _ h
  cases h
  exact .refl a.frame

theorem getField_stays (index : UInt16) : Stays (getField index) :=
  .frame_bind fun f => (Stays.liftMalformed (f.pool.member index)).bind fun _ =>
    (Stays.onStack (popObject _)).bind fun _ => (Stays.onMachine _).bind fun _ =>
      (Stays.lift _).bind fun _ => .onStack _

theorem putField_stays (index : UInt16) : Stays (putField index) :=
  .frame_bind fun f => (Stays.liftMalformed (f.pool.member index)).bind fun _ =>
    (Stays.liftMalformed _).bind fun _ => (Stays.onStack (popValue _)).bind fun _ =>
      (Stays.onStack (popObject _)).bind fun _ => (Stays.onMachine _).bind fun _ =>
        (Stays.lift _).bind fun _ => .onMachine _

/-!
# Calls
-/

theorem receiver_stays (method : Method) : Stays (receiver method) := by
  refine (Stays.onStack (peek _)).bind fun slot => ?_
  cases slot with
  | reference target => exact .pure target
  | int _ => exact .fail _

theorem receiverObject_stays (instruction : String) (method : Method) :
    Stays (receiverObject instruction method) := by
  refine (receiver_stays method).bind fun target => ?_
  cases target with
  | some address => exact .pure address
  | none => exact .fail _

theorem invokeStatic_stays (load : Loader) (index : UInt16) : Stays (invokeStatic load index) :=
  .frame_bind fun f => (Stays.onMachine (f.pool.resolveMethod load index)).bind fun _ =>
    .ite (.fail _) (.pure _)

theorem invokeSpecial_stays (load : Loader) (index : UInt16) : Stays (invokeSpecial load index) :=
  .frame_bind fun f => (Stays.liftMalformed (f.pool.member index)).bind fun _ =>
    (Stays.onMachine (f.pool.resolveMethod load index)).bind fun _ =>
      (Stays.onMachine _).bind fun _ => (Stays.lift _).bind fun _ =>
        .ite (.fail _) (.ite (.fail _) ((receiverObject_stays _ _).bind fun _ => .pure _))

theorem select_stays (c : Class) (method : Method) :
    Stays (do return Effect.call (← c.select method)) :=
  (Stays.lift (c.select method)).map Effect.call

theorem invokeVirtual_stays (load : Loader) (index : UInt16) :
    Stays (invokeVirtual load index) := by
  refine .frame_bind fun f => (Stays.onMachine (f.pool.resolveMethod load index)).bind fun method =>
    .ite (.fail _) ((receiver_stays method).bind fun target => ?_)
  cases target with
  | some address =>
      exact .ite (.pure _) ((Stays.onMachine (Machine.object address)).bind fun _ =>
        select_stays _ _)
  | none => exact (Stays.onWorkspace (Print.onNull method)).bind fun _ => .ite (.pure _) (.fail _)

theorem invokeInterface_stays (load : Loader) (index : UInt16) :
    Stays (invokeInterface load index) :=
  .frame_bind fun f => (Stays.liftMalformed (f.pool.member index)).bind fun _ =>
    (Stays.onMachine (f.pool.resolveMethod load index)).bind fun _ =>
      (Stays.onMachine _).bind fun _ => (receiverObject_stays _ _).bind fun _ =>
        (Stays.onMachine _).bind fun _ => .ite (.fail _) (select_stays _ _)

end Exec

/-!
# Branches
-/

inductive Instruction.Branches : Instruction → OperandStack → Prop where
  | zero {condition : Condition} {offset value : Int32} {below : List Slot}
      (h : condition.holds (compareInt value 0) = true) :
      Branches (.branchZero condition offset) ⟨.int value :: below⟩
  | int {condition : Condition} {offset a b : Int32} {below : List Slot}
      (h : condition.holds (compareInt a b) = true) :
      Branches (.branchInt condition offset) ⟨.int b :: .int a :: below⟩
  | same {same : Bool} {offset : Int32} {a b : Reference} {below : List Slot}
      (h : (a == b) = same) :
      Branches (.branchSame same offset) ⟨.reference b :: .reference a :: below⟩
  | null {null : Bool} {offset : Int32} {a : Reference} {below : List Slot}
      (h : a.isNone = null) : Branches (.branchNull null offset) ⟨.reference a :: below⟩
  | jump (offset : Int32) (s : OperandStack) : Branches (.jump offset) s
  | table (default low high : Int32) (offsets : List Int32) (s : OperandStack) :
      Branches (.tableSwitch default low high offsets) s
  | lookup (default : Int32) (table : Option (List (Int32 × Int32))) (s : OperandStack) :
      Branches (.lookupSwitch default table) s

namespace Exec

variable {a a' : Activation} {below : List Slot}

theorem stays_of_not {c : Prop} [Decidable c] {offset : Int32} (hc : ¬ c)
    (h : (if c then jump offset else pure ()) a = .ok () a') : a.frame.SamePlace a'.frame := by
  rw [if_neg hc] at h
  cases h
  exact .refl a.frame

theorem branchZero_stays {condition : Condition} {offset : Int32}
    (hnot : ¬ (Instruction.branchZero condition offset).Branches a.frame.stack)
    (h : branchZero condition offset a = .ok () a') : a.frame.SamePlace a'.frame := by
  obtain ⟨value, a₁, hpop, hrest⟩ := bind_eq_ok h
  obtain ⟨s, hstack, -⟩ := onStack_eq_ok hpop
  have hc : ¬ condition.holds (compareInt value 0) = true := by
    intro hc
    rw [popInt_eq_ok hstack] at hnot
    exact hnot (.zero hc)
  exact (Stays.onStack popInt hpop).trans (stays_of_not hc hrest)

theorem branchInt_stays {condition : Condition} {offset : Int32}
    (hnot : ¬ (Instruction.branchInt condition offset).Branches a.frame.stack)
    (h : branchInt condition offset a = .ok () a') : a.frame.SamePlace a'.frame := by
  obtain ⟨right, a₁, hright, hrest⟩ := bind_eq_ok h
  obtain ⟨left, a₂, hleft, hbranch⟩ := bind_eq_ok hrest
  obtain ⟨s₁, hstack₁, rfl⟩ := onStack_eq_ok hright
  obtain ⟨s₂, hstack₂, -⟩ := onStack_eq_ok hleft
  have hc : ¬ condition.holds (compareInt left right) = true := by
    intro hc
    rw [popInt_eq_ok hstack₁, show s₁.slots = .int left :: s₂.slots from
      congrArg slots (popInt_eq_ok hstack₂)] at hnot
    exact hnot (.int hc)
  exact (Stays.onStack popInt hright).trans
    ((Stays.onStack popInt hleft).trans (stays_of_not hc hbranch))

theorem branchSame_stays {same : Bool} {offset : Int32}
    (hnot : ¬ (Instruction.branchSame same offset).Branches a.frame.stack)
    (h : branchSame same offset a = .ok () a') : a.frame.SamePlace a'.frame := by
  obtain ⟨right, a₁, hright, hrest⟩ := bind_eq_ok h
  obtain ⟨left, a₂, hleft, hbranch⟩ := bind_eq_ok hrest
  obtain ⟨s₁, hstack₁, rfl⟩ := onStack_eq_ok hright
  obtain ⟨s₂, hstack₂, -⟩ := onStack_eq_ok hleft
  have hc : ¬ ((left == right) == same) = true := by
    intro hc
    rw [popReference_eq_ok hstack₁, show s₁.slots = .reference left :: s₂.slots from
      congrArg slots (popReference_eq_ok hstack₂)] at hnot
    exact hnot (.same (eq_of_beq hc))
  exact (Stays.onStack popReference hright).trans
    ((Stays.onStack popReference hleft).trans (stays_of_not hc hbranch))

theorem branchNull_stays {null : Bool} {offset : Int32}
    (hnot : ¬ (Instruction.branchNull null offset).Branches a.frame.stack)
    (h : branchNull null offset a = .ok () a') : a.frame.SamePlace a'.frame := by
  obtain ⟨target, a₁, hpop, hrest⟩ := bind_eq_ok h
  obtain ⟨s, hstack, -⟩ := onStack_eq_ok hpop
  have hc : ¬ (target.isNone == null) = true := by
    intro hc
    rw [popReference_eq_ok hstack] at hnot
    exact hnot (.null (eq_of_beq hc))
  exact (Stays.onStack popReference hpop).trans (stays_of_not hc hrest)

theorem thenNext_eq_ok {x : Exec Unit} {effect : Effect} (h : thenNext x a = .ok effect a') :
    effect = .next ∧ x a = .ok () a' := by
  obtain ⟨⟨⟩, a₁, hx, hrest⟩ := bind_eq_ok h
  cases hrest
  exact ⟨rfl, hx⟩

end Exec

/-- An instruction that does not branch leaves the addresses as it found them. -/
theorem Instruction.execute_stays {load : Loader} {i : Instruction} {a a' : Activation}
    {effect : Effect} (hnot : ¬ i.Branches a.frame.stack) (h : i.execute load a = .ok effect a') :
    a.frame.SamePlace a'.frame := by
  have hall {x : Exec Unit} (hx : Exec.Stays x) (h : Exec.thenNext x a = .ok effect a') :
      a.frame.SamePlace a'.frame := hx.thenNext h
  -- the branches that are taken are those that `hnot` excludes
  cases i with
  | nop => exact Exec.Stays.pure _ h
  | push value => exact hall (.onStack _) h
  | pushConstant index =>
      exact hall (.frame_bind fun f => (Exec.Stays.onMachine (f.pool.literal load index)).bind
        fun _ => .onStack _) h
  | load kind index => exact hall (Exec.loadLocal_stays kind index) h
  | store kind index => exact hall (Exec.storeLocal_stays kind index) h
  | increment index delta => exact hall (Exec.increment_stays index delta) h
  | arrayLoad => exact hall Exec.arrayLoad_stays h
  | arrayStore kind => exact hall (Exec.arrayStore_stays kind) h
  | shuffle move => exact hall (.onStack _) h
  | intOp op => exact hall (.onStack _) h
  | longOp op => exact hall (.onStack _) h
  | intShift op => exact hall (.onStack _) h
  | longShift op => exact hall (.onStack _) h
  | floatOp op => exact hall (.onStack _) h
  | doubleOp op => exact hall (.onStack _) h
  | negate number => exact hall (.onStack _) h
  | convert conversion => exact hall (.onStack _) h
  | compareLong => exact hall (.onStack _) h
  | compareFloat unordered => exact hall (.onStack _) h
  | compareDouble unordered => exact hall (.onStack _) h
  | branchZero condition offset => exact Exec.branchZero_stays hnot (Exec.thenNext_eq_ok h).2
  | branchInt condition offset => exact Exec.branchInt_stays hnot (Exec.thenNext_eq_ok h).2
  | branchSame same offset => exact Exec.branchSame_stays hnot (Exec.thenNext_eq_ok h).2
  | branchNull null offset => exact Exec.branchNull_stays hnot (Exec.thenNext_eq_ok h).2
  | jump offset => exact absurd (.jump offset _) hnot
  | tableSwitch default low high offsets =>
      exact absurd (.table default low high offsets _) hnot
  | lookupSwitch default table => exact absurd (.lookup default table _) hnot
  | returnValue kind => exact ((Exec.Stays.onStack (popKind kind)).bind fun _ => .pure _) h
  | returnVoid => exact Exec.Stays.pure _ h
  | getStatic index => exact hall (Exec.getStatic_stays load index) h
  | putStatic index => exact hall (Exec.putStatic_stays load index) h
  | getField index => exact hall (Exec.getField_stays index) h
  | putField index => exact hall (Exec.putField_stays index) h
  | invokeVirtual index => exact Exec.invokeVirtual_stays load index h
  | invokeSpecial index => exact Exec.invokeSpecial_stays load index h
  | invokeStatic index => exact Exec.invokeStatic_stays load index h
  | invokeInterface index => exact Exec.invokeInterface_stays load index h
  | new index => exact hall (Exec.newObject_stays load index) h
  | newArray element => exact hall (Exec.newArray_stays load element) h
  | newReferenceArray index => exact hall (Exec.newReferenceArray_stays load index) h
  | newMultiArray index dimensions => exact hall (Exec.newMultiArray_stays load index dimensions) h
  | arrayLength => exact hall Exec.arrayLength_stays h
  | throw => exact ((Exec.Stays.onStack (popObject _)).bind fun _ => .pure _) h
  | checkCast index => exact hall (Exec.checkCast_stays load index) h
  | instanceOf index => exact hall (Exec.instanceOf_stays load index) h

/-!
# Effects
-/

structure Instruction.GoesOn (i : Instruction) : Prop where
  value : ∀ kind, i ≠ .returnValue kind
  void : i ≠ .returnVoid
  throw : i ≠ .throw

/-- What the instruction may ask of the call stack. -/
inductive Instruction.MayAsk : Instruction → Effect → Prop where
  | next {i : Instruction} (h : i.GoesOn) : MayAsk i .next
  | call {i : Instruction} (h : i.GoesOn) (method : Method) : MayAsk i (.call method)
  | value (value : Value) : MayAsk (.returnValue value.kind) (.ret (some value))
  | void : MayAsk .returnVoid (.ret none)
  | throw (exception : Nat) : MayAsk .throw (.throw exception)

theorem Instruction.GoesOn.next_or_call {i : Instruction} {effect : Effect} (h : i.GoesOn)
    (hasks : i.MayAsk effect) : effect = .next ∨ ∃ method, effect = .call method := by
  cases hasks with
  | next => exact .inl rfl
  | call _ method => exact .inr ⟨method, rfl⟩
  | value value => exact absurd rfl (h.value value.kind)
  | void => exact absurd rfl h.void
  | throw => exact absurd rfl h.throw

namespace Exec

def Yields (Q : α → Prop) (x : Exec α) : Prop :=
  ∀ ⦃a b a'⦄, x a = .ok b a' → Q b

namespace Yields

variable {Q : α → Prop}

theorem pure {b : α} (h : Q b) : Yields Q (pure b) := by
  intro a _ _ heq
  cases heq
  exact h

theorem bind {x : Exec β} {f : β → Exec α} (hf : ∀ b, Yields Q (f b)) : Yields Q (x >>= f) := by
  intro a c a'' h
  obtain ⟨b, a', -, hrest⟩ := bind_eq_ok h
  exact hf b hrest

theorem ite {c : Prop} [Decidable c] {x y : Exec α} (hx : Yields Q x) (hy : Yields Q y) :
    Yields Q (if c then x else y) := by
  split
  · exact hx
  · exact hy

theorem fail (f : Fault) : Yields Q (Bytecode.fail f) := by
  intro a b a' h
  rw [fail_apply] at h
  cases h

end Yields

variable {i : Instruction}

theorem invokeStatic_mayAsk (hi : i.GoesOn) (load : Loader) (index : UInt16) :
    Yields i.MayAsk (invokeStatic load index) :=
  .bind fun _ => .bind fun method => .ite (.fail _) (.pure (.call hi method))

theorem invokeSpecial_mayAsk (hi : i.GoesOn) (load : Loader) (index : UInt16) :
    Yields i.MayAsk (invokeSpecial load index) :=
  .bind fun _ => .bind fun _ => .bind fun _ => .bind fun _ => .bind fun bound =>
    .ite (.fail _) (.ite (.fail _) (.bind fun _ => .pure (.call hi bound)))

theorem select_mayAsk (hi : i.GoesOn) (c : Class) (method : Method) :
    Yields i.MayAsk (do return .call (← c.select method)) :=
  .bind fun selected => .pure (.call hi selected)

theorem invokeVirtual_mayAsk (hi : i.GoesOn) (load : Loader) (index : UInt16) :
    Yields i.MayAsk (invokeVirtual load index) := by
  refine .bind fun _ => .bind fun method => .ite (.fail _) (.bind fun target => ?_)
  cases target with
  | some address => exact .ite (.pure (.call hi method)) (.bind fun _ => select_mayAsk hi _ method)
  | none => exact .bind fun _ => .ite (.pure (.next hi)) (.fail _)

theorem invokeInterface_mayAsk (hi : i.GoesOn) (load : Loader) (index : UInt16) :
    Yields i.MayAsk (invokeInterface load index) :=
  .bind fun _ => .bind fun _ => .bind fun method => .bind fun _ => .bind fun _ => .bind fun _ =>
    .ite (.fail _) (select_mayAsk hi _ method)

theorem thenNext_mayAsk (hi : i.GoesOn) (x : Exec Unit) : Yields i.MayAsk (thenNext x) :=
  .bind fun _ => .pure (.next hi)

theorem popKind_mayAsk (kind : Kind) :
    Yields (Instruction.returnValue kind).MayAsk (do return .ret (some (← popKind kind))) := by
  intro a effect a' h
  obtain ⟨value, a₁, hpop, hrest⟩ := bind_eq_ok h
  obtain ⟨s, hstack, -⟩ := onStack_eq_ok hpop
  cases hrest
  rw [← kind_of_popKind hstack]
  exact .value value

end Exec

namespace Instruction

theorem execute_goesOn {i : Instruction} (hi : i.GoesOn) (load : Loader) :
    Exec.Yields i.MayAsk (i.execute load) := by
  cases i with
  | returnValue kind => exact absurd rfl (hi.value kind)
  | returnVoid => exact absurd rfl hi.void
  | throw => exact absurd rfl hi.throw
  | invokeVirtual index => exact Exec.invokeVirtual_mayAsk hi load index
  | invokeSpecial index => exact Exec.invokeSpecial_mayAsk hi load index
  | invokeStatic index => exact Exec.invokeStatic_mayAsk hi load index
  | invokeInterface index => exact Exec.invokeInterface_mayAsk hi load index
  | nop => exact .pure (.next hi)
  | _ => exact Exec.thenNext_mayAsk hi _

theorem execute_mayAsk (load : Loader) (i : Instruction) :
    Exec.Yields i.MayAsk (i.execute load) := by
  by_cases hi : i.GoesOn
  · exact execute_goesOn hi load
  · cases i with
    | returnValue kind => exact Exec.popKind_mayAsk kind
    | returnVoid => exact .pure .void
    | throw => exact .bind fun exception => .pure (.throw exception)
    | _ => exact absurd ⟨nofun, nofun, nofun⟩ hi

end Instruction
/-!
# Steps
-/

namespace Exec

variable {load : Loader} {tracing : Bool} {f : Frame} {m : Machine}

theorem step_at_end (hcode : f.method.code[f.pc]? = none) :
    step load tracing ⟨f, m⟩ =
      .error (.fault (.malformed (.codeEnds f.method.label))) ⟨{ f with current := f.pc }, m⟩ := by
  have hfetch : fetch ⟨f, m⟩ =
      .error (.fault (.malformed (.codeEnds f.method.label))) ⟨{ f with current := f.pc }, m⟩ := by
    unfold fetch
    rw [get_bind]
    simp only [hcode]
    rfl
  exact bind_of_error hfetch

/-- An instruction that cannot be decoded fails before anything is done, with any stack. -/
theorem step_of_undecoded {opcode : UInt8} {e : DecodeError}
    (hcode : f.method.code[f.pc]? = some opcode)
    (hdecode : Instruction.decode f.method.code opcode (f.pc + 1) = .error e) :
    ∃ log, step load tracing ⟨f, m⟩ =
      .error (.fault (e.fault f.method)) ⟨{ f with current := f.pc }, { m with log }⟩ := by
  obtain ⟨log, hnote⟩ := note_apply tracing opcode { f with current := f.pc } m
  have hfails : decode opcode ⟨{ f with current := f.pc }, { m with log }⟩ =
      .error (.fault (e.fault f.method)) ⟨{ f with current := f.pc }, { m with log }⟩ := by
    unfold decode
    rw [get_bind]
    simp only [hdecode]
    rfl
  refine ⟨log, ?_⟩
  unfold step
  rw [bind_of_ok (fetch_of_code hcode m), bind_of_ok (hnote f.stack), bind_of_error hfails]

theorem step_eq_ok {effect : Effect} {a' : Activation}
    (h : step load tracing ⟨f, m⟩ = .ok effect a') :
    ∃ i behind log, f.Next i behind ∧
      i.execute load ⟨{ f with current := f.pc, pc := behind }, { m with log }⟩ =
        .ok effect a' := by
  cases hcode : f.method.code[f.pc]? with
  | none =>
      rw [step_at_end hcode] at h
      cases h
  | some opcode =>
      cases hdecode : Instruction.decode f.method.code opcode (f.pc + 1) with
      | error e =>
          obtain ⟨log, hfails⟩ := step_of_undecoded hcode hdecode
          cases hfails.symm.trans h
      | ok found =>
          have hnext : f.Next found.1 found.2 := ⟨opcode, hcode, hdecode⟩
          obtain ⟨log, hstep⟩ := step_eq_execute hnext load tracing m
          exact ⟨found.1, found.2, log, hnext, (hstep f.stack).symm.trans h⟩

theorem step_mayAsk {effect : Effect} {a' : Activation}
    (h : step load tracing ⟨f, m⟩ = .ok effect a') :
    ∃ i behind, f.Next i behind ∧ i.MayAsk effect := by
  obtain ⟨i, behind, log, hnext, hexecute⟩ := step_eq_ok h
  exact ⟨i, behind, hnext, i.execute_mayAsk load hexecute⟩

/-- Unless it branches, an instruction leaves its frame at the address behind it. -/
theorem step_stays {effect : Effect} {a' : Activation} {i : Instruction} {behind : Nat}
    (hnext : f.Next i behind) (hnot : ¬ i.Branches f.stack)
    (h : step load tracing ⟨f, m⟩ = .ok effect a') :
    a'.frame.method = f.method ∧ a'.frame.current = f.pc ∧ a'.frame.pc = behind := by
  obtain ⟨log, hstep⟩ := step_eq_execute hnext load tracing m
  have hplace := Instruction.execute_stays hnot ((hstep f.stack).symm.trans h)
  exact ⟨hplace.method, hplace.current, hplace.pc⟩

end Exec
end Bytecode
