import Bytecode.Proofs.Class.Lookup
import Bytecode.Proofs.Thread.Equations

/-!
# Calls of instance methods

An instruction that calls a method on an object finds the receiver below the arguments, by the
method that its reference names.  The method that is called is found again from the class of the
receiver.  It has the same arguments, and is an instance method unless that class finds a static
one.
-/

namespace Bytecode

/-!
# Methods of the same descriptor
-/

theorem Method.signature_congr {method other : Method}
    (h : method.descriptor = other.descriptor) : method.signature = other.signature := by
  have heq := method.signature_eq
  rw [h, other.signature_eq] at heq
  exact (Except.ok.inj heq).symm

theorem Class.select_eq_ok {c : Class} {method selected : Method}
    (h : c.select method = .ok selected) :
    c.method? selected.name selected.descriptor = some selected ∧
      selected.signature = method.signature := by
  unfold select at h
  split at h
  next => cases h
  next found hfound =>
      rcases method?_named hfound with ⟨hname, hdescriptor⟩
      split at h
      · cases h
      · cases h
        rw [hname, hdescriptor]
        exact ⟨hfound, Method.signature_congr hdescriptor⟩

/-!
# The receiver
-/

namespace OperandStack

theorem peek_eq_ok {depth : Nat} {s s' : OperandStack} {slot : Slot}
    (h : peek depth s = .ok slot s') : s.slots[depth]? = some slot ∧ s' = s := by
  unfold peek at h
  rw [get_bind] at h
  cases hslot : s.slots[depth]? with
  | none =>
      rw [hslot] at h
      cases h
  | some found =>
      rw [hslot] at h
      cases h
      exact ⟨rfl, rfl⟩

theorem popSlots_below {s : OperandStack} {slot : Slot} {arguments below : List Slot}
    (h : s.slots = arguments.reverse ++ slot :: below) :
    popSlots (arguments.length + 1) s = .ok (slot :: arguments) ⟨below⟩ := by
  have hlength : s.slots.length = arguments.length + 1 + below.length := by
    rw [h, List.length_append, List.length_reverse, List.length_cons]
    omega
  have henough : ¬ s.size < arguments.length + 1 := by
    rw [size, hlength]
    omega
  have hsplit : s.slots = (slot :: arguments).reverse ++ below := by
    rw [h, List.reverse_cons, List.append_assoc]
    rfl
  unfold popSlots
  rw [get_bind]
  simp only [henough, if_false]
  show EStateM.Result.ok (s.slots.take _).reverse (OperandStack.mk (s.slots.drop _)) = _
  rw [hsplit, List.take_left' (by simp), List.drop_left' (by simp), List.reverse_reverse]

end OperandStack

theorem split_of_getElem? {slots : List Slot} {depth : Nat} {slot : Slot}
    (h : slots[depth]? = some slot) :
    ∃ arguments below : List Slot,
      slots = arguments.reverse ++ slot :: below ∧ arguments.length = depth := by
  rcases List.getElem?_eq_some_iff.mp h with ⟨hlt, hslot⟩
  refine ⟨(slots.take depth).reverse, slots.drop (depth + 1), ?_, ?_⟩
  · rw [List.reverse_reverse, ← hslot, ← List.drop_eq_getElem_cons hlt, List.take_append_drop]
  · rw [List.length_reverse, List.length_take, Nat.min_eq_left hlt.le]

namespace Exec

variable {a a' : Activation} {load : Loader} {index : UInt16} {method : Method}

theorem receiver_eq_ok {target : Reference} (h : receiver method a = .ok target a') :
    a.frame.stack.slots[method.signature.argumentSlots]? = some (.reference target) ∧ a' = a := by
  unfold receiver at h
  rcases bind_eq_ok h with ⟨slot, a₁, hpeek, hrest⟩
  rcases onStack_eq_ok hpeek with ⟨stack, hslot, rfl⟩
  rcases OperandStack.peek_eq_ok hslot with ⟨hslots, rfl⟩
  cases slot with
  | int value => cases hrest
  | reference found =>
      cases hrest
      exact ⟨hslots, rfl⟩

theorem receiverObject_eq_ok {instruction : String} {address : Nat}
    (h : receiverObject instruction method a = .ok address a') :
    a.frame.stack.slots[method.signature.argumentSlots]? = some (.reference (some address)) ∧
      a' = a := by
  unfold receiverObject at h
  rcases bind_eq_ok h with ⟨target, a₁, hreceiver, hrest⟩
  cases target with
  | none => cases hrest
  | some found =>
      cases hrest
      exact receiver_eq_ok hreceiver

theorem receiverObject_of_slot {instruction : String} {address : Nat}
    (h : a.frame.stack.slots[method.signature.argumentSlots]? =
      some (.reference (some address))) : receiverObject instruction method a = .ok address a := by
  have hpeek : (liftM (OperandStack.peek method.signature.argumentSlots) : Exec Slot) a =
      .ok (.reference (some address)) a := by
    rw [Thread.onStack_apply, OperandStack.peek, get_bind, h]
    rfl
  have hreceiver : receiver method a = .ok (some address) a := bind_of_ok hpeek
  exact bind_of_ok hreceiver

/-!
# The instructions
-/

/-- A method is called on an object that is found below its arguments.  It is an instance method, or
one that the class of the object finds. -/
structure Calls (a : Activation) (method : Method) (a' : Activation) (address : Nat) : Prop where
  frame : a'.frame = a.frame
  receiver : a.frame.stack.slots[method.signature.argumentSlots]? =
    some (.reference (some address))
  selected : method.isStatic = true → ∃ o, a'.machine.objects[address]? = some o ∧
    o.receiverClass.method? method.name method.descriptor = some method

theorem Calls.of_select {o : Object} {address : Nat} {resolved : Method}
    (hframe : a'.frame = a.frame)
    (hreceiver : a.frame.stack.slots[resolved.signature.argumentSlots]? =
      some (.reference (some address)))
    (hobject : a'.machine.objects[address]? = some o)
    (hselect : o.receiverClass.select resolved = .ok method) : Calls a method a' address := by
  rcases Class.select_eq_ok hselect with ⟨hmethod, hsignature⟩
  refine ⟨hframe, ?_, fun _ => ⟨o, hobject, hmethod⟩⟩
  rw [hsignature]
  exact hreceiver

theorem invokeVirtual_calls (h : invokeVirtual load index a = .ok (.call method) a') :
    ∃ address, Calls a method a' address := by
  unfold invokeVirtual at h
  rcases bind_eq_ok h with ⟨f, a₀, hframe, h⟩
  cases hframe
  rcases bind_eq_ok h with ⟨resolved, a₁, hresolve, h⟩
  rcases onMachine_eq_ok hresolve with ⟨m, -, rfl⟩
  cases hstatic : resolved.isStatic with
  | true =>
      simp only [hstatic, if_true] at h
      cases h
  | false =>
      simp only [hstatic, Bool.false_eq_true, if_false] at h
      rcases bind_eq_ok h with ⟨target, a₂, hreceiver, h⟩
      rcases receiver_eq_ok hreceiver with ⟨hslots, rfl⟩
      cases target with
      | none =>
          -- a call without receiver prints, or fails
          rcases bind_eq_ok h with ⟨printed, a₃, -, h⟩
          cases printed <;> cases h
      | some address =>
          refine ⟨address, ?_⟩
          cases hprivate : resolved.access.isPrivate with
          | true =>
              simp only [hprivate, if_true] at h
              cases h
              refine ⟨rfl, hslots, fun hcalled => ?_⟩
              rw [hstatic] at hcalled
              cases hcalled
          | false =>
              simp only [hprivate, Bool.false_eq_true, if_false] at h
              rcases bind_eq_ok h with ⟨o, a₃, hobject, h⟩
              rcases onMachine_eq_ok hobject with ⟨m', hfound, rfl⟩
              rcases Machine.object_eq_ok hfound with ⟨ho, rfl⟩
              rcases bind_eq_ok h with ⟨selected, a₄, hselect, h⟩
              rcases lift_eq_ok hselect with ⟨hselected, rfl⟩
              cases h
              exact .of_select rfl hslots ho hselected

/-- What a reference leads to when a method is called directly, whatever stands on the stack. -/
structure Binds (load : Loader) (caller : Class) (p : ClassPool) (index : UInt16) (m : Machine)
    (method : Method) (m' : Machine) : Prop where
  found : ∃ member resolved referenced m₁, p.member index = .ok member ∧
    p.resolveMethod load index m = .ok resolved m₁ ∧
      load.loadClass member.owner m₁ = .ok referenced m' ∧
        bindSuper caller referenced resolved = .ok method
  isStatic : method.isStatic = false
  isAbstract : method.isAbstract = false

theorem onMachine_of_ok {α : Type} {x : MachineM α} {b : α} {f : Frame} {m m' : Machine}
    (h : x m = .ok b m') : (liftM x : Exec α) ⟨f, m⟩ = .ok b ⟨f, m'⟩ := by
  show Activation.onWorkspace (Workspace.onMachine x) ⟨f, m⟩ = _
  simp only [Activation.onWorkspace, Workspace.onMachine, h]

theorem invokeSpecial_binds (h : invokeSpecial load index a = .ok (.call method) a') :
    Binds load a.frame.cls a.frame.pool index a.machine method a'.machine ∧
      a'.frame = a.frame ∧
        ∃ address, a.frame.stack.slots[method.signature.argumentSlots]? =
          some (.reference (some address)) := by
  unfold invokeSpecial at h
  rcases bind_eq_ok h with ⟨f, a₀, hframe, h⟩
  cases hframe
  rcases bind_eq_ok h with ⟨member, a₁, hlift, h⟩
  rcases liftMalformed_eq_ok hlift with ⟨hmember, rfl⟩
  rcases bind_eq_ok h with ⟨resolved, a₂, hlift, h⟩
  rcases onMachine_eq_ok hlift with ⟨m, hresolve, rfl⟩
  rcases bind_eq_ok h with ⟨referenced, a₃, hlift, h⟩
  rcases onMachine_eq_ok hlift with ⟨m', hload, rfl⟩
  rcases bind_eq_ok h with ⟨bound, a₄, hlift, h⟩
  rcases lift_eq_ok hlift with ⟨hbind, rfl⟩
  cases hstatic : bound.isStatic with
  | true =>
      simp only [hstatic, if_true] at h
      cases h
  | false =>
      simp only [hstatic, Bool.false_eq_true, if_false] at h
      cases habstract : bound.isAbstract with
      | true =>
          simp only [habstract, if_true] at h
          cases h
      | false =>
          simp only [habstract, Bool.false_eq_true, if_false] at h
          rcases bind_eq_ok h with ⟨address, a₅, hreceiver, h⟩
          rcases receiverObject_eq_ok hreceiver with ⟨hslots, rfl⟩
          cases h
          exact ⟨⟨⟨member, resolved, referenced, m, hmember, hresolve, hload, hbind⟩, hstatic,
            habstract⟩, rfl, address, hslots⟩

theorem invokeSpecial_of_binds {f : Frame} {m m' : Machine} {address : Nat}
    (h : Binds load f.cls f.pool index m method m')
    (hreceiver : f.stack.slots[method.signature.argumentSlots]? =
      some (.reference (some address))) :
    invokeSpecial load index ⟨f, m⟩ = .ok (.call method) ⟨f, m'⟩ := by
  rcases h with ⟨⟨member, resolved, referenced, m₁, hmember, hresolve, hload, hbind⟩, hstatic,
    habstract⟩
  have hfound : receiverObject "invokespecial" method ⟨f, m'⟩ = .ok address ⟨f, m'⟩ :=
    receiverObject_of_slot hreceiver
  show (do
    let member ← f.pool.member index
    _ : Exec Effect) ⟨f, m⟩ = _
  rw [hmember]
  refine (bind_of_ok (onMachine_of_ok hresolve)).trans ?_
  refine (bind_of_ok (onMachine_of_ok hload)).trans ?_
  rw [hbind]
  show (do
    if method.isStatic then _
    _ : Exec Effect) ⟨f, m'⟩ = _
  simp only [hstatic, habstract]
  exact bind_of_ok hfound

theorem invokeSpecial_iff :
    invokeSpecial load index a = .ok (.call method) a' ↔
      Binds load a.frame.cls a.frame.pool index a.machine method a'.machine ∧
        a'.frame = a.frame ∧
          ∃ address, a.frame.stack.slots[method.signature.argumentSlots]? =
            some (.reference (some address)) := by
  constructor
  · exact invokeSpecial_binds
  · rcases a with ⟨f, m⟩
    rcases a' with ⟨f', m'⟩
    rintro ⟨hbinds, rfl, address, hslots⟩
    exact invokeSpecial_of_binds hbinds hslots

theorem invokeSpecial_calls (h : invokeSpecial load index a = .ok (.call method) a') :
    method.isStatic = false ∧ ∃ address, Calls a method a' address := by
  rcases invokeSpecial_binds h with ⟨hbinds, hframe, address, hslots⟩
  refine ⟨hbinds.isStatic, address, hframe, hslots, fun hcalled => ?_⟩
  rw [hbinds.isStatic] at hcalled
  cases hcalled

theorem invokeInterface_calls (h : invokeInterface load index a = .ok (.call method) a') :
    ∃ address, Calls a method a' address := by
  unfold invokeInterface at h
  rcases bind_eq_ok h with ⟨f, a₀, hframe, h⟩
  cases hframe
  rcases bind_eq_ok h with ⟨member, a₁, hmember, h⟩
  rcases liftMalformed_eq_ok hmember with ⟨-, rfl⟩
  rcases bind_eq_ok h with ⟨resolved, a₂, hresolve, h⟩
  rcases onMachine_eq_ok hresolve with ⟨m, -, rfl⟩
  rcases bind_eq_ok h with ⟨interface, a₃, hload, h⟩
  rcases onMachine_eq_ok hload with ⟨m', -, rfl⟩
  rcases bind_eq_ok h with ⟨address, a₄, hreceiver, h⟩
  rcases receiverObject_eq_ok hreceiver with ⟨hslots, rfl⟩
  rcases bind_eq_ok h with ⟨o, a₅, hobject, h⟩
  rcases onMachine_eq_ok hobject with ⟨m'', hfound, rfl⟩
  rcases Machine.object_eq_ok hfound with ⟨ho, rfl⟩
  cases himplements : o.receiverClass.implements interface with
  | false =>
      simp only [himplements, Bool.not_false, if_true] at h
      cases h
  | true =>
      simp only [himplements, Bool.not_true, Bool.false_eq_true, if_false] at h
      rcases bind_eq_ok h with ⟨selected, a₆, hselect, h⟩
      rcases lift_eq_ok hselect with ⟨hselected, rfl⟩
      cases h
      exact ⟨address, .of_select rfl hslots ho hselected⟩

end Exec

/-!
# The call
-/

namespace Thread

variable {host : Host} {load : Loader} {method : Method} {t t' : Thread} {m : Machine}
  {caller : Frame} {rest : List Frame} {result : Option Value} {receiver : Nat}
  {arguments below : List Slot}

/-- What a call does with the stack of the caller: a native method is given it as it is; any other
method takes the receiver and the arguments off before its frame is made, and has them as its first
variables. -/
structure Passes (host : Host) (load : Loader) (method : Method) (receiver : Nat)
    (arguments below : List Slot) (m : Machine) (caller : Frame) (rest : List Frame)
    (result : Option Value) : Prop where
  native : method.isNative = true →
    dispatch host load method ⟨m, caller :: rest, result⟩ =
      onFrame (host.natives.call load method : NativeM Unit) ⟨m, caller :: rest, result⟩
  taken : method.isNative = false → method.isAbstract = false →
    dispatch host load method ⟨m, caller :: rest, result⟩ =
      pushFrame host method (.reference (some receiver) :: arguments)
        ⟨m, { caller with stack := ⟨below⟩ } :: rest, result⟩
  entered : method.isNative = false → ∀ t,
    dispatch host load method ⟨m, caller :: rest, result⟩ = .ok () t →
      ∃ callee, t = ⟨m, callee :: { caller with stack := ⟨below⟩ } :: rest, result⟩ ∧
        callee.method = method ∧ callee.locals.get 0 = .ok (.reference (some receiver)) ∧
          ∀ index slot, arguments[index]? = some slot → callee.locals.get (index + 1) = .ok slot

theorem frameFor_eq_ok {frame : Frame} {slots : List Slot}
    (h : frameFor m method slots = .ok frame) :
    frame.method = method ∧ frame.locals = .ofArguments method.maxLocals.toNat slots := by
  unfold frameFor at h
  split at h
  next => cases h
  next =>
      split at h
      next => cases h
      next =>
          cases h
          exact ⟨rfl, rfl⟩

theorem ofArguments_get {count index : Nat} {slots : List Slot} {slot : Slot}
    (h : slots[index]? = some slot) : (Locals.ofArguments count slots).get index = .ok slot := by
  have hslot : (slots ++ List.replicate (count - slots.length) (Slot.int 0))[index]? =
      some slot := by
    rw [List.getElem?_append_left (List.getElem?_eq_some_iff.mp h).1, h]
  unfold Locals.get Locals.ofArguments
  rw [List.getElem?_toArray, hslot]

theorem dispatch_instance (hstatic : method.isStatic = false) (hnative : method.isNative = false)
    (habstract : method.isAbstract = false)
    (hslots : caller.stack.slots = arguments.reverse ++ .reference (some receiver) :: below)
    (hlength : arguments.length = method.signature.argumentSlots) :
    dispatch host load method ⟨m, caller :: rest, result⟩ =
      pushFrame host method (.reference (some receiver) :: arguments)
        ⟨m, { caller with stack := ⟨below⟩ } :: rest, result⟩ := by
  have hcount : method.argumentSlots = arguments.length + 1 := by
    simp [Method.argumentSlots, hstatic, hlength]
  have hpop : onFrame (OperandStack.popSlots method.argumentSlots : StackM (List Slot))
      ⟨m, caller :: rest, result⟩ =
        .ok (.reference (some receiver) :: arguments)
          ⟨m, { caller with stack := ⟨below⟩ } :: rest, result⟩ := by
    rw [onFrame_cons, onStack_apply, hcount, OperandStack.popSlots_below hslots]
  unfold dispatch
  simp only [hnative, habstract, Bool.false_eq_true, if_false]
  exact bind_of_ok hpop

theorem passes_instance (hstatic : method.isStatic = false)
    (hslots : caller.stack.slots = arguments.reverse ++ .reference (some receiver) :: below)
    (hlength : arguments.length = method.signature.argumentSlots) :
    Passes host load method receiver arguments below m caller rest result := by
  constructor
  · intro hnative
    unfold dispatch
    rw [if_pos hnative]
  · intro hnative habstract
    exact dispatch_instance hstatic hnative habstract hslots hlength
  · intro hnative t hdispatch
    cases habstract : method.isAbstract with
    | true =>
        unfold dispatch at hdispatch
        simp only [hnative, habstract, Bool.false_eq_true, if_false, if_true] at hdispatch
        cases hdispatch
    | false =>
        rw [dispatch_instance hstatic hnative habstract hslots hlength, pushFrame_apply]
          at hdispatch
        split at hdispatch
        next => cases hdispatch
        next callee hcallee =>
            rcases frameFor_eq_ok hcallee with ⟨hmethod, hlocals⟩
            split at hdispatch
            · cases hdispatch
            · cases hdispatch
              refine ⟨callee, rfl, hmethod, ?_, fun index slot hslot => ?_⟩
              · rw [hlocals]
                exact ofArguments_get rfl
              · rw [hlocals]
                exact ofArguments_get hslot

end Thread

inductive Instruction.CallsInstance : Instruction → Prop where
  | virtual (index : UInt16) : CallsInstance (.invokeVirtual index)
  | special (index : UInt16) : CallsInstance (.invokeSpecial index)
  | interface (index : UInt16) : CallsInstance (.invokeInterface index)

/-- An instruction that calls a method on an object leaves the frame as it is, with the receiver
below as many slots as the arguments of the method take.  Unless the class of the receiver finds a
static method, the call takes exactly these slots: a native method is left to pop them, any other
method gets them as its first variables.  The instruction for constructors, private methods and
methods of a superclass never calls a static one. -/
theorem Instruction.instance_call {i : Instruction} (hi : i.CallsInstance) {load : Loader}
    {a a' : Activation} {method : Method} (h : i.execute load a = .ok (.call method) a') :
    a'.frame = a.frame ∧ ∃ receiver arguments below,
      a.frame.stack.slots = arguments.reverse ++ .reference (some receiver) :: below ∧
        arguments.length = method.signature.argumentSlots ∧
          (method.isStatic = true → (∀ index, i ≠ .invokeSpecial index) ∧
            ∃ o, a'.machine.objects[receiver]? = some o ∧
              o.receiverClass.method? method.name method.descriptor = some method) ∧
          (method.isStatic = false → method.argumentSlots = 1 + method.signature.argumentSlots ∧
            ∀ host rest result, Thread.Passes host load method receiver arguments below a'.machine
              a'.frame rest result) := by
  -- each of the three instructions finds its receiver below the arguments
  have hcalls : (method.isStatic = true → ∀ index, i ≠ .invokeSpecial index) ∧
      ∃ receiver, Exec.Calls a method a' receiver := by
    cases hi with
    | virtual index => exact ⟨nofun, Exec.invokeVirtual_calls h⟩
    | special index =>
        rcases Exec.invokeSpecial_calls h with ⟨hinstance, hcalls⟩
        refine ⟨fun hstatic => ?_, hcalls⟩
        rw [hinstance] at hstatic
        cases hstatic
    | interface index => exact ⟨nofun, Exec.invokeInterface_calls h⟩
  rcases hcalls with ⟨hspecial, receiver, hcalls⟩
  rcases split_of_getElem? hcalls.receiver with ⟨arguments, below, hslots, hlength⟩
  refine ⟨hcalls.frame, receiver, arguments, below, hslots, hlength, ?_, ?_⟩
  · intro hstatic
    exact ⟨hspecial hstatic, hcalls.selected hstatic⟩
  · intro hstatic
    constructor
    · simp [Method.argumentSlots, hstatic, Nat.add_comm]
    · intro host rest result
      rw [hcalls.frame]
      exact Thread.passes_instance hstatic hslots hlength

namespace StaticOverride

/-!
A class `A` with an instance method, a subclass `B` that declares a static method of the same name
and descriptor, and a class `C` with an interface whose method is static.
-/

def member (access : UInt16) (code : List UInt8) : MemberLayout :=
  ⟨access, 8, 9, [.code 5 ⟨2, 3, code, []⟩ []]⟩

def memberNames : List Constant := [.utf8 "m", .utf8 "(J)I"]

def caller (name : UInt16) (code : List UInt8) : MemberLayout :=
  ⟨0x0009, name, 24, [.code 5 ⟨4, 0, code, []⟩ []]⟩

def mainNames : List Constant :=
  [.utf8 "A", .classRef 8, .utf8 "B", .classRef 10, .utf8 "C", .classRef 12, .utf8 "I",
    .classRef 14, .utf8 "m", .utf8 "(J)I", .nameAndType 16 17, .methodRef 9 18,
    .interfaceMethodRef 15 18, .utf8 "onA", .utf8 "onB", .utf8 "onC", .utf8 "()I"]

/-- Each method makes an object, pushes a long number and calls the method on the object. -/
def mainFile : List UInt8 :=
  Sample.file "Main" (some rootName) mainNames
    [caller 21 [0xBB, 0, 9, 0x0A, 0xB6, 0, 19, 0xAC],
      caller 22 [0xBB, 0, 11, 0x0A, 0xB6, 0, 19, 0xAC],
      caller 23 [0xBB, 0, 13, 0x0A, 0xB9, 0, 20, 3, 0, 0xAC]]

def host : Host :=
  Sample.host
    [("A", Sample.file "A" (some rootName) memberNames [member 0x0001 [0x04, 0xAC]]),
      ("B", Sample.file "B" (some "A") memberNames [member 0x0009 [0x05, 0xAC]]),
      ("I", Sample.typeFile 0x601 "I" rootName none memberNames [member 0x0009 [0x05, 0xAC]]),
      ("C", Sample.typeFile 0x21 "C" rootName (some "I") [] []), ("Main", mainFile)]

def machine : Machine := endOf ((Request.load "Main").run host 8) Machine.empty

def begun (m : Machine) (name : String) : Option Thread := do
  let c ← m.class? "Main"
  let method ← c.method? name "()I"
  match Thread.pushFrame host method [] ⟨m, [], none⟩ with
  | .ok _ t => some t
  | .error _ _ => none

def stepped (t : Thread) : Option Thread :=
  match Thread.step host (host.load 8) 0 t with
  | .ok _ t' => some t'
  | .error _ _ => none

def ready (m : Machine) (name : String) : Option Thread := do
  stepped (← stepped (← begun m name))

theorem running_of_begun {m : Machine} (hrest : host.AtRest m) {name : String} {t : Thread}
    (h : begun m name = some t) : host.Running t := by
  unfold begun at h
  rcases Option.bind_eq_some_iff.mp h with ⟨c, -, h⟩
  rcases Option.bind_eq_some_iff.mp h with ⟨method, -, h⟩
  split at h
  next hpush =>
      cases h
      exact .call method [] hrest hpush
  next => cases h

theorem step_of_stepped {t t' : Thread} (h : stepped t = some t') :
    Thread.step host (host.load 8) 0 t = .ok () t' := by
  unfold stepped at h
  split at h
  next hstep =>
      cases h
      exact hstep
  next => cases h

theorem running_of_ready {m : Machine} (hrest : host.AtRest m) {name : String} {t : Thread}
    (h : ready m name = some t) : host.Running t := by
  unfold ready at h
  rcases Option.bind_eq_some_iff.mp h with ⟨t₀, hbegun, h⟩
  rcases Option.bind_eq_some_iff.mp h with ⟨t₁, hfirst, hsecond⟩
  exact .step 8 (.step 8 (running_of_begun hrest hbegun) (step_of_stepped hfirst))
    (step_of_stepped hsecond)

def next (t : Thread) : Option String := do
  let f ← t.frames.head?
  let opcode ← f.method.code[f.pc]?
  return Opcode.mnemonic opcode

/-- The innermost method of a thread, whether it is static, and the slots that its caller is left
with. -/
def entered (t : Thread) : Option (String × Bool × List Slot) :=
  match t.frames with
  | [callee, caller] => some (callee.method.label, callee.method.isStatic, caller.stack.slots)
  | _ => none

def outcome (m : Machine) (name : String) : Option (String × String × Bool × List Slot) := do
  let t ← ready m name
  let t' ← stepped t
  return (← next t, ← entered t')

theorem machine_atRest : host.AtRest machine := by
  have hended : TypedHeap.ended ((Request.load "Main").run host 8 Machine.empty) = true := by
    decide +kernel
  exact .request (.load "Main") 8 .empty (TypedHeap.finishes_of_ended hended)

theorem outcome_onB :
    outcome machine "onB" = some ("invokevirtual", "B.m(J)I", true, [.reference (some 0)]) := by
  decide +kernel

theorem outcome_onC :
    outcome machine "onC" = some ("invokeinterface", "I.m(J)I", true, [.reference (some 0)]) := by
  decide +kernel

theorem outcome_eq {m : Machine} (hrest : host.AtRest m)
    {name mnemonic label : String} {static : Bool} {slots : List Slot}
    (h : outcome m name = some (mnemonic, label, static, slots)) :
    ∃ t t' callee caller, host.Running t ∧ next t = some mnemonic ∧
      Thread.step host (host.load 8) 0 t = .ok () t' ∧ t'.frames = [callee, caller] ∧
        callee.method.isStatic = static ∧ caller.stack.slots = slots := by
  unfold outcome at h
  rcases Option.bind_eq_some_iff.mp h with ⟨t, hready, h⟩
  rcases Option.bind_eq_some_iff.mp h with ⟨t', hstepped, h⟩
  rcases Option.bind_eq_some_iff.mp h with ⟨found, hnext, h⟩
  rcases Option.bind_eq_some_iff.mp h with ⟨description, hentered, heq⟩
  cases heq
  unfold entered at hentered
  split at hentered
  next callee caller hframes =>
      cases hentered
      exact ⟨t, t', callee, caller, running_of_ready hrest hready, hnext,
        step_of_stepped hstepped, hframes, rfl, rfl⟩
  next => cases hentered

/-- Both calls enter a static method, and leave the receiver on the stack of the caller. -/
theorem static_method_entered :
    (∃ t t' callee caller, host.Running t ∧ next t = some "invokevirtual" ∧
        Thread.step host (host.load 8) 0 t = .ok () t' ∧ t'.frames = [callee, caller] ∧
          callee.method.isStatic = true ∧ caller.stack.slots = [.reference (some 0)]) ∧
      ∃ t t' callee caller, host.Running t ∧ next t = some "invokeinterface" ∧
        Thread.step host (host.load 8) 0 t = .ok () t' ∧ t'.frames = [callee, caller] ∧
          callee.method.isStatic = true ∧ caller.stack.slots = [.reference (some 0)] :=
  ⟨outcome_eq machine_atRest outcome_onB, outcome_eq machine_atRest outcome_onC⟩

def called (m : Machine) (name : String) : Option (Bool × Nat) := do
  let t ← ready m name
  let f ← t.frames.head?
  match (Instruction.invokeVirtual 19).execute (host.load 8) ⟨f, t.machine⟩ with
  | .ok (.call method) _ => some (method.isStatic, method.signature.argumentSlots)
  | _ => none

theorem called_onA : called machine "onA" = some (false, 2) := by
  decide +kernel

theorem called_eq {m : Machine} {name : String} {static : Bool} {count : Nat}
    (h : called m name = some (static, count)) :
    ∃ t f method a', ready m name = some t ∧ t.frames.head? = some f ∧
      (Instruction.invokeVirtual 19).execute (host.load 8) ⟨f, t.machine⟩ =
        .ok (.call method) a' ∧ method.isStatic = static ∧
          method.signature.argumentSlots = count := by
  unfold called at h
  rcases Option.bind_eq_some_iff.mp h with ⟨t, hready, h⟩
  rcases Option.bind_eq_some_iff.mp h with ⟨f, hframe, h⟩
  split at h
  next method a' hcall =>
      cases h
      exact ⟨t, f, method, a', hready, hframe, hcall, rfl, rfl⟩
  next => cases h

/-- The call on an object of class `A` takes three slots: the object and a long number. -/
theorem instance_method_called :
    ∃ t f method a', host.Running t ∧ t.frames.head? = some f ∧
      (Instruction.invokeVirtual 19).execute (host.load 8) ⟨f, t.machine⟩ =
        .ok (.call method) a' ∧ method.isStatic = false ∧ a'.frame = f ∧
          ∃ receiver arguments below,
            f.stack.slots = arguments.reverse ++ .reference (some receiver) :: below ∧
              arguments.length = 2 ∧ method.argumentSlots = 3 ∧
                ∀ rest result, Thread.Passes host (host.load 8) method receiver arguments below
                  a'.machine a'.frame rest result := by
  rcases called_eq called_onA with ⟨t, f, method, a', hready, hframe, hcall, hstatic, hcount⟩
  rcases Instruction.instance_call (.virtual 19) hcall with
    ⟨hsame, receiver, arguments, below, hslots, hlength, -, hinstance⟩
  rcases hinstance hstatic with ⟨htotal, hpasses⟩
  rw [hcount] at hlength htotal
  exact ⟨t, f, method, a', running_of_ready machine_atRest hready, hframe, hcall, hstatic, hsame,
    receiver, arguments, below, hslots, hlength, htotal, hpasses host⟩

end StaticOverride

end Bytecode
