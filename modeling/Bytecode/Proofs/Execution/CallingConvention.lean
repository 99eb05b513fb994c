import Bytecode.Proofs.Execution.InstanceCalls
import Bytecode.Proofs.Execution.LocalSlots

/-!
# Passing of arguments

A call takes the slots of its arguments off the stack of the caller and makes them the first local
variables of the new frame.  Each argument is read back from the variable whose number is the slots
of the arguments before it, and a call that the host makes starts with the same frame.
-/

namespace Bytecode

/-!
# Values and their slots
-/

def Value.width (values : List Value) : Nat :=
  (values.map fun v => v.kind.slots).sum

theorem Value.length_flatMap_slots (values : List Value) :
    (values.flatMap slots).length = width values := by
  simp only [List.length_flatMap, length_slots, width]

namespace OperandStack

theorem toList_foldl_append (values : List Value) (s : OperandStack) :
    (values.foldl append s).toList = s.toList ++ values.flatMap Value.slots := by
  induction values generalizing s with
  | nil => simp
  | cons value values ih =>
      rw [List.foldl_cons, ih, List.flatMap_cons, ← List.append_assoc]
      simp [toList, append]

theorem toList_ofValues (values : List Value) :
    (ofValues values).toList = values.flatMap Value.slots :=
  toList_foldl_append values empty

theorem size_ofValues (values : List Value) : (ofValues values).size = Value.width values := by
  rw [← Value.length_flatMap_slots, ← toList_ofValues, toList, List.length_reverse, size]

theorem forM_pushValue (values : List Value) (s : OperandStack) :
    values.forM pushValue s = .ok () (values.foldl append s) := by
  induction values generalizing s with
  | nil => rfl
  | cons value values ih => exact (bind_of_ok (pushValue_apply value s)).trans (ih _)

theorem popKind_append (s : OperandStack) (value : Value) :
    popKind value.kind (s.append value) = .ok value s := by
  cases value with
  | int _ => rfl
  | long value =>
      show EStateM.Result.ok (Value.long (Slot.join (Slot.high value) (Slot.low value))) s = _
      rw [Slot.join_high_low]
  | float word => rfl
  | double word =>
      show EStateM.Result.ok (Value.double (Slot.join (Slot.high word.toInt64)
        (Slot.low word.toInt64)).toUInt64) s = _
      rw [Slot.join_high_low]
      rfl
  | reference _ => rfl

theorem popInt_append (s : OperandStack) (number : Int32) :
    popInt (s.append (.int number)) = .ok number s :=
  rfl

theorem popLong_append (s : OperandStack) (number : Int64) :
    popLong (s.append (.long number)) = .ok number s :=
  congrArg (EStateM.Result.ok · s) (Slot.join_high_low number)

theorem popFloat_append (s : OperandStack) (word : UInt32) :
    popFloat (s.append (.float word)) = .ok word s :=
  rfl

theorem popDouble_append (s : OperandStack) (word : UInt64) :
    popDouble (s.append (.double word)) = .ok word s :=
  bind_of_ok (popLong_append s word.toInt64)

theorem popReference_append (s : OperandStack) (target : Reference) :
    popReference (s.append (.reference target)) = .ok target s :=
  rfl

theorem popValue_append {type : ValueType} {value : Value} (h : type.kind? = some value.kind)
    (s : OperandStack) : popValue type (s.append value) = .ok value s := by
  unfold popValue
  rw [h]
  exact popKind_append s value

end OperandStack

/-!
# Local variables
-/

namespace Locals

variable {l : Locals} {before after : List Slot}

theorem read_of_split {value : Value} (h : l.slots.toList = before ++ value.slots ++ after) :
    l.read value.kind before.length = .ok value := by
  rw [read_eq_ok]
  constructor
  · rfl
  · intro k hk
    rw [← value.length_slots] at hk
    rw [← Array.getElem?_toList, h, List.append_assoc,
      List.getElem?_append_right (Nat.le_add_right before.length k), Nat.add_sub_cancel_left,
      List.getElem?_append_left hk]

end Locals

/-!
# The frame of a call
-/

/-- Types of what a call takes off the stack: the receiver if there is one, then the arguments. -/
def Method.parameters (method : Method) : List ValueType :=
  if method.isStatic then method.signature.arguments
  else .reference :: method.signature.arguments

def ValueType.Admits (type : ValueType) (value : Value) : Prop :=
  type.kind? = some value.kind

theorem ValueType.Admits.slots {type : ValueType} {value : Value} (h : type.Admits value) :
    type.slots = value.kind.slots := by
  rw [ValueType.slots, show type.kind? = some value.kind from h]
  rfl

theorem Value.width_of_admits {types : List ValueType} {values : List Value}
    (h : List.Forall₂ ValueType.Admits types values) :
    width values = types.foldr (fun t n => t.slots + n) 0 := by
  induction h with
  | nil => rfl
  | cons hadmits _ ih => rw [width, List.map_cons, List.sum_cons, List.foldr_cons, ← ih,
      hadmits.slots, width]

theorem Method.argumentSlots_eq {method : Method} {arguments : List Value}
    (h : List.Forall₂ ValueType.Admits method.parameters arguments) :
    method.argumentSlots = Value.width arguments := by
  rw [Value.width_of_admits h, argumentSlots, Descriptor.Signature.argumentSlots, parameters]
  cases method.isStatic with
  | true => rfl
  | false => exact Nat.add_comm _ 1

/-- The frame with which a call starts.  Its variables are the arguments in order, each at the slots
of those before it, and zeros. -/
structure Frame.Receives (callee : Frame) (called : Method) (owner : Class) (constants : Pool)
    (arguments : List Value) : Prop where
  method : callee.method = called
  cls : callee.cls = owner
  pool : callee.pool = ⟨owner.name, constants⟩
  stack : callee.stack = .empty
  pc : callee.pc = 0
  argument : ∀ earlier value later, arguments = earlier ++ value :: later →
    callee.locals.read value.kind (Value.width earlier) = .ok value
  zero : ∀ index, called.argumentSlots ≤ index → index < called.maxLocals.toNat →
    callee.locals.get index = .ok (.int 0)
  size : callee.locals.size = max called.maxLocals.toNat called.argumentSlots

theorem Frame.receives_enter {method : Method} (cls : Class) (pool : Pool) {arguments : List Value}
    (htypes : List.Forall₂ ValueType.Admits method.parameters arguments) :
    (Frame.enter method cls ⟨cls.name, pool⟩ (arguments.flatMap Value.slots)).Receives method cls
      pool arguments := by
  have hcount := Method.argumentSlots_eq htypes
  have hlength := Value.length_flatMap_slots arguments
  refine ⟨rfl, rfl, rfl, rfl, rfl, ?_, ?_, ?_⟩
  · intro earlier value later hsplit
    rw [← Value.length_flatMap_slots]
    apply Locals.read_of_split
    rw [enter, Locals.ofArguments, hsplit, List.flatMap_append, List.flatMap_cons]
    simp only [List.append_assoc]
    rfl
  · intro index hfrom hto
    unfold enter Locals.get Locals.ofArguments
    rw [List.getElem?_toArray, List.getElem?_append_right (by omega), List.getElem?_replicate,
      if_pos (by omega)]
  · simp only [enter, Locals.size, Locals.ofArguments, List.size_toArray, List.length_append,
      List.length_replicate]
    omega

/-!
# Calls from code and from the host
-/

namespace Thread

section

variable {host : Host} {load : Loader} {method : Method} {cls : Class} {pool : Pool} {m : Machine}
  {caller : Frame} {rest : List Frame} {result : Option Value} {below : OperandStack}
  {arguments : List Value} {frame : Frame}

theorem dispatch_arguments (hnative : method.isNative = false)
    (habstract : method.isAbstract = false)
    (hsize : (OperandStack.ofValues arguments).size = method.argumentSlots)
    (hstack : caller.stack = arguments.foldl OperandStack.append below) :
    dispatch host load method ⟨m, caller :: rest, result⟩ =
      pushFrame host method (OperandStack.ofValues arguments).toList
        ⟨m, { caller with stack := below } :: rest, result⟩ := by
  have hpop : onFrame (OperandStack.popSlots method.argumentSlots : StackM (List Slot))
      ⟨m, caller :: rest, result⟩ =
        .ok (OperandStack.ofValues arguments).toList
          ⟨m, { caller with stack := below } :: rest, result⟩ := by
    rw [onFrame_cons, onStack_apply, hstack, ← hsize, OperandStack.popSlots_foldl_append]
  unfold dispatch
  simp only [hnative, habstract, Bool.false_eq_true, if_false]
  exact bind_of_ok hpop

theorem invoke_arguments (hnative : method.isNative = false)
    (habstract : method.isAbstract = false)
    (hsize : (OperandStack.ofValues arguments).size = method.argumentSlots) (fuel : Nat) :
    invoke host load fuel method arguments m =
      onFresh (do
        pushFrame host method (OperandStack.ofValues arguments).toList
        run host load fuel 0
        return (← get).result) m := by
  unfold invoke
  simp only [hsize, hnative, habstract, ne_eq, not_true, Bool.false_eq_true, if_false]

theorem pushFrame_of_frameFor {slots : List Slot} {t : Thread}
    (hframe : frameFor t.machine method slots = .ok frame)
    (hdepth : t.frames.length < host.maxDepth) :
    pushFrame host method slots t = .ok () { t with frames := frame :: t.frames } := by
  rw [pushFrame_apply, hframe]
  exact if_neg (Nat.not_le.mpr hdepth)

/-- A call of a method with code, whose class and constants the machine has, leaves on the stack of
the caller what was below the arguments, and starts with a frame that has the arguments as its first
variables; a call with these arguments from the host starts with the same frame. -/
theorem arguments_passed (hnative : method.isNative = false)
    (habstract : method.isAbstract = false) (hclass : m.class? method.owner = some cls)
    (hpool : m.pool? cls.name = some pool)
    (htypes : List.Forall₂ ValueType.Admits method.parameters arguments)
    (hstack : arguments.forM OperandStack.pushValue below = .ok () caller.stack)
    (hdepth : (caller :: rest).length < host.maxDepth) :
    ∃ callee : Frame, callee.Receives method cls pool arguments ∧
      dispatch host load method ⟨m, caller :: rest, result⟩ =
        .ok () ⟨m, callee :: { caller with stack := below } :: rest, result⟩ ∧
      ∀ fuel, invoke host load fuel method arguments m =
        onFresh (fun t => (do
          run host load fuel 0
          return (← get).result) { t with frames := [callee] }) m := by
  have hsize : (OperandStack.ofValues arguments).size = method.argumentSlots := by
    rw [OperandStack.size_ofValues, Method.argumentSlots_eq htypes]
  have hpushed : caller.stack = arguments.foldl OperandStack.append below := by
    rw [OperandStack.forM_pushValue] at hstack
    exact (EStateM.Result.ok.inj hstack).2.symm
  have hframe : frameFor m method (OperandStack.ofValues arguments).toList =
      .ok (.enter method cls ⟨cls.name, pool⟩ (arguments.flatMap Value.slots)) := by
    simp only [frameFor, hclass, hpool, OperandStack.toList_ofValues]
  refine ⟨_, Frame.receives_enter cls pool htypes, ?_, fun fuel => ?_⟩
  · rw [dispatch_arguments hnative habstract hsize hpushed]
    exact pushFrame_of_frameFor hframe hdepth
  · have hpush := pushFrame_of_frameFor (t := ⟨m, [], none⟩) hframe (Nat.zero_lt_of_lt hdepth)
    rw [invoke_arguments hnative habstract hsize]
    unfold onFresh
    rw [bind_of_ok hpush]

end

namespace MixedWidths

/-!
An instance method with arguments of one and of two slots, and two variables more than they take.
-/

def mixed : Method :=
  ⟨"A", "mixed", "(JIDLA;)V", .ofWord 0x0001, ⟨[.long, .int, .double, .reference], .void⟩, 0, 9,
    #[0xB1], [], rfl⟩

def cls : Class :=
  .mk ⟨"A", .ofWord 0x0021, [], [], [mixed]⟩ none []

def pool : Pool := ⟨#[.unusable]⟩

def machine : Machine :=
  { Machine.empty with
    classes := [{ Entry.ofClass cls with state := .initialized }], pools := [("A", pool)]
    objects := #[.ofInstance (.ofClass cls)] }

def host : Host :=
  ⟨ClassPath.ofRows [], [], 8, false⟩

def arguments : List Value :=
  [.reference (some 0), .long (-5), .int 7, .double 0x3FF0000000000000, .reference none]

def caller (stack : OperandStack) : Frame :=
  { Frame.enter mixed cls ⟨"A", pool⟩ [] with stack }

/-- Seven slots are passed, and the variables after them are zero. -/
theorem mixed_called :
    ∃ callee : Frame,
      dispatch host (host.load 8) mixed
          ⟨machine, [caller (arguments.foldl .append ⟨[.int 3]⟩)], none⟩ =
        .ok () ⟨machine, [callee, caller ⟨[.int 3]⟩], none⟩ ∧
      callee.locals.read .reference 0 = .ok (.reference (some 0)) ∧
      callee.locals.read .long 1 = .ok (.long (-5)) ∧ callee.locals.read .int 3 = .ok (.int 7) ∧
      callee.locals.read .double 4 = .ok (.double 0x3FF0000000000000) ∧
      callee.locals.read .reference 6 = .ok (.reference none) ∧
      callee.locals.get 7 = .ok (.int 0) ∧ callee.locals.get 8 = .ok (.int 0) := by
  have htypes : List.Forall₂ ValueType.Admits mixed.parameters arguments := by
    repeat constructor
  have hpassed : ∃ callee : Frame, callee.Receives mixed cls pool arguments ∧
      dispatch host (host.load 8) mixed
          ⟨machine, [caller (arguments.foldl .append ⟨[.int 3]⟩)], none⟩ =
        .ok () ⟨machine, [callee, caller ⟨[.int 3]⟩], none⟩ ∧ _ :=
    arguments_passed rfl rfl rfl rfl htypes rfl (by decide)
  rcases hpassed with ⟨callee, hreceives, hcall, -⟩
  refine ⟨callee, hcall, hreceives.argument [] _ _ rfl,
    hreceives.argument (arguments.take 1) _ _ rfl,
    hreceives.argument (arguments.take 2) _ _ rfl, hreceives.argument (arguments.take 3) _ _ rfl,
    hreceives.argument (arguments.take 4) _ _ rfl, hreceives.zero 7 ?_ ?_, hreceives.zero 8 ?_ ?_⟩
  all_goals decide

end MixedWidths

end Thread
end Bytecode
