import Bytecode.Native.Library
import Bytecode.Proofs.Execution.CallingConvention
import Bytecode.Proofs.Loading.Order

/-!
# Calls of native methods

A native method works on the operand stack of its caller.  Each of the built-in ones takes off what
its declaration names, the receiver among it, and leaves one value of its type, so that the caller
finds its own operands where they were.  A call that prints takes off the receiver and the argument.
-/

namespace Bytecode

open OperandStack

/-- One stack is the other one with a value of the type on top, or the same if the type is void. -/
inductive OperandStack.Receives (s : OperandStack) : ValueType → OperandStack → Prop where
  | nothing : Receives s .void s
  | value {type : ValueType} {value : Value} (h : type.Admits value) :
      Receives s type (s.append value)

/-!
# Stacks that native methods leave
-/

namespace NativeM

variable {α β : Type} {s s' : OperandStack} {P : α → OperandStack → Prop}
  {Q : β → OperandStack → Prop}

/-- What is true of the result and of the stack whenever the program ends well on the stack,
whatever the machine is and becomes. -/
def Leaves (x : NativeM α) (s : OperandStack) (Q : α → OperandStack → Prop) : Prop :=
  ∀ (m : Machine) (a : α) (w : Workspace), x ⟨s, m⟩ = .ok a w → Q a w.stack

theorem leaves_pure {a : α} (h : P a s) : Leaves (pure a) s P := by
  intro m b w hrun
  cases hrun
  exact h

theorem leaves_throw (e : Halt) : Leaves (throw e : NativeM α) s P := by
  intro m a w hrun
  cases hrun

theorem leaves_bind {x : NativeM α} {f : α → NativeM β} (hx : Leaves x s P)
    (hf : ∀ a s', P a s' → Leaves (f a) s' Q) : Leaves (x >>= f) s Q := by
  intro m b w hrun
  obtain ⟨a, w₁, hfirst, hrest⟩ := bind_eq_ok hrun
  exact hf a w₁.stack (hx m a w₁ hfirst) w₁.machine b w hrest

theorem leaves_onStack {y : StackM α} {a : α} (h : y s = .ok a s') (hP : P a s') :
    Leaves (liftM y : NativeM α) s P := by
  intro m b w hrun
  change Workspace.onStack y ⟨s, m⟩ = _ at hrun
  simp only [Workspace.onStack, h] at hrun
  cases hrun
  exact hP

theorem leaves_onMachine {y : MachineM α} (hP : ∀ a, P a s) :
    Leaves (liftM y : NativeM α) s P := by
  intro m b w hrun
  change Workspace.onMachine y ⟨s, m⟩ = _ at hrun
  cases hy : y m with
  | ok a m' =>
      simp only [Workspace.onMachine, hy] at hrun
      cases hrun
      exact hP _
  | error e m' =>
      simp only [Workspace.onMachine, hy] at hrun
      cases hrun

theorem leaves_lift {y : Except Fault α} (hP : ∀ a, P a s) :
    Leaves (liftM y : NativeM α) s P := by
  intro m b w hrun
  obtain ⟨-, rfl⟩ := lift_eq_ok hrun
  exact hP b

theorem leaves_liftMalformed {y : Except Malformed α} (hP : ∀ a, P a s) :
    Leaves (liftM y : NativeM α) s P := by
  intro m b w hrun
  obtain ⟨-, rfl⟩ := liftMalformed_eq_ok hrun
  exact hP b

theorem leaves_get {f : Workspace → NativeM β} (hf : ∀ m, Leaves (f ⟨s, m⟩) s Q) :
    Leaves (get >>= f) s Q := by
  intro m b w hrun
  exact hf m m b w hrun

theorem leaves_pop {y : StackM α} {f : α → NativeM β} {a : α} (h : y s = .ok a s')
    (hf : Leaves (f a) s' Q) : Leaves (liftM y >>= f) s Q := by
  refine leaves_bind (P := fun b s₁ => b = a ∧ s₁ = s') (leaves_onStack h ⟨rfl, rfl⟩) ?_
  rintro _ _ ⟨rfl, rfl⟩
  exact hf

theorem leaves_machine {y : MachineM α} {f : α → NativeM β} (hf : ∀ a, Leaves (f a) s Q) :
    Leaves (liftM y >>= f) s Q := by
  refine leaves_bind (P := fun _ s₁ => s₁ = s) (leaves_onMachine fun _ => rfl) ?_
  rintro a _ rfl
  exact hf a

theorem leaves_checked {y : Except Fault α} {f : α → NativeM β} (hf : ∀ a, Leaves (f a) s Q) :
    Leaves (liftM y >>= f) s Q := by
  refine leaves_bind (P := fun _ s₁ => s₁ = s) (leaves_lift fun _ => rfl) ?_
  rintro a _ rfl
  exact hf a

theorem leaves_popObject {use : String} {target : Reference} {f : Nat → NativeM β}
    (hf : ∀ address, Leaves (f address) s Q) :
    Leaves (liftM (popObject use) >>= f) (s.append (.reference target)) Q := by
  cases target with
  | none =>
      intro m b w hrun
      cases hrun
  | some address => exact leaves_pop rfl (hf address)

theorem leaves_result {type : ValueType} (value : Value) (h : type.Admits value) :
    Leaves (liftM (pushValue value) : NativeM Unit) s fun _ s' => s.Receives type s' :=
  leaves_onStack (pushValue_apply value s) (.value h)

end NativeM

/-!
# Declarations of the built-in native methods
-/

structure Native.Declaration where
  isStatic : Bool
  signature : Descriptor.Signature

namespace Native

open NativeM

namespace Declaration

def parameters (d : Declaration) : List ValueType :=
  if d.isStatic then d.signature.arguments else .reference :: d.signature.arguments

/-- The native method takes off what the declaration says, and leaves its result. -/
def Describes (d : Declaration) (native : Native) : Prop :=
  ∀ (load : Loader) (below : OperandStack) (arguments : List Value),
    List.Forall₂ ValueType.Admits d.parameters arguments →
      Leaves (native load) (arguments.foldl append below) fun _ s =>
        below.Receives d.signature.returns s

def ofStatic (arguments : List ValueType) (returns : ValueType) : Declaration :=
  ⟨true, arguments, returns⟩

def ofInstance (arguments : List ValueType) (returns : ValueType) : Declaration :=
  ⟨false, arguments, returns⟩

variable {native : Native}

theorem describes_nil {d : Declaration} (hd : d.parameters = [])
    (h : ∀ load (s : OperandStack),
      Leaves (native load) s fun _ s' => s.Receives d.signature.returns s') :
    d.Describes native := by
  intro load below arguments harguments
  rw [hd] at harguments
  cases harguments
  exact h load below

theorem describes_singleton {d : Declaration} {type : ValueType} (hd : d.parameters = [type])
    (h : ∀ load (s : OperandStack) value, type.Admits value →
      Leaves (native load) (s.append value) fun _ s' => s.Receives d.signature.returns s') :
    d.Describes native := by
  intro load below arguments harguments
  rw [hd] at harguments
  cases harguments with
  | cons hadmits hrest =>
      cases hrest
      exact h load below _ hadmits

end Declaration

def declarations : List ((String × String) × Declaration) := [
  (("java/lang/Object", "hashCode"), .ofInstance [] .int),
  (("java/lang/Object", "getClass"), .ofInstance [] .reference),
  (("java/lang/System", "identityHashCode"), .ofStatic [.reference] .int),
  (("java/lang/System", "arraycopy"),
    .ofStatic [.reference, .int, .reference, .int, .int] .void),
  (("java/lang/Class", "getPrimitiveClass"), .ofStatic [.reference] .reference),
  (("java/lang/Class", "isPrimitive"), .ofInstance [] .boolean),
  (("java/lang/Class", "desiredAssertionStatus0"), .ofStatic [.reference] .boolean),
  (("java/lang/Class", "getName0"), .ofInstance [] .reference),
  (("java/lang/Class", "forName0"),
    .ofStatic [.reference, .boolean, .reference, .reference] .reference),
  (("java/lang/Float", "floatToRawIntBits"), .ofStatic [.float] .int),
  (("java/lang/Float", "intBitsToFloat"), .ofStatic [.int] .float),
  (("java/lang/Double", "doubleToRawLongBits"), .ofStatic [.double] .long),
  (("java/lang/Double", "longBitsToDouble"), .ofStatic [.long] .double),
  (("java/lang/String", "intern"), .ofInstance [] .reference),
  (("java/lang/StringUTF16", "isBigEndian"), .ofStatic [] .boolean),
  (("jdk/internal/misc/VM", "initialize"), .ofStatic [] .void),
  (("jdk/internal/misc/VM", "initializeFromArchive"), .ofStatic [.reference] .void),
  (("jdk/internal/misc/Unsafe", "arrayBaseOffset0"), .ofInstance [.reference] .int),
  (("jdk/internal/misc/Unsafe", "arrayIndexScale0"), .ofInstance [.reference] .int),
  (("jdk/internal/util/SystemProps$Raw", "platformProperties"), .ofStatic [] .reference),
  (("jdk/internal/util/SystemProps$Raw", "vmProperties"), .ofStatic [] .reference),
  (("java/lang/Runtime", "maxMemory"), .ofInstance [] .long)]

end Native

namespace ValueType.Admits

variable {v : Value}

theorem eq_int {type : ValueType} (htype : type.kind? = some .int) (h : type.Admits v) :
    ∃ number, v = .int number := by
  unfold Admits at h
  rw [htype] at h
  cases v with
  | int number => exact ⟨number, rfl⟩
  | _ => cases h

theorem eq_long (h : ValueType.long.Admits v) : ∃ number, v = .long number := by
  cases v with
  | long number => exact ⟨number, rfl⟩
  | _ => cases h

theorem eq_float (h : ValueType.float.Admits v) : ∃ word, v = .float word := by
  cases v with
  | float word => exact ⟨word, rfl⟩
  | _ => cases h

theorem eq_double (h : ValueType.double.Admits v) : ∃ word, v = .double word := by
  cases v with
  | double word => exact ⟨word, rfl⟩
  | _ => cases h

theorem eq_reference (h : ValueType.reference.Admits v) : ∃ target, v = .reference target := by
  cases v with
  | reference target => exact ⟨target, rfl⟩
  | _ => cases h

end ValueType.Admits

namespace Native

open NativeM Declaration

/-!
# Objects
-/

variable {s : OperandStack}

theorem describes_ofReference {d : Declaration} {native : Native} (hd : d.parameters = [.reference])
    (h : ∀ load (s : OperandStack) target,
      Leaves (native load) (s.append (.reference target)) fun _ s' =>
        s.Receives d.signature.returns s') :
    d.Describes native := by
  apply describes_singleton hd
  intro load s value hadmits
  obtain ⟨target, rfl⟩ := hadmits.eq_reference
  exact h load s target

theorem hashCode_declared : (ofInstance [] .int).Describes hashCode :=
  describes_ofReference rfl fun _ _ _ =>
    leaves_popObject fun _ => leaves_result (.int _) rfl

theorem identityHashCode_declared : (ofStatic [.reference] .int).Describes identityHashCode := by
  apply describes_ofReference rfl
  intro load s target
  refine leaves_pop (popReference_append s target) ?_
  cases target with
  | none => exact leaves_result (.int _) rfl
  | some address => exact leaves_result (.int _) rfl

theorem getClass_declared : (ofInstance [] .reference).Describes getClass :=
  describes_ofReference rfl fun _ _ _ =>
    leaves_popObject fun _ => leaves_machine fun _ => leaves_machine fun _ =>
      leaves_result (.reference _) rfl

theorem arrayCopy_declared :
    (ofStatic [.reference, .int, .reference, .int, .int] .void).Describes arrayCopy := by
  intro load below arguments harguments
  change List.Forall₂ _ [_, _, _, _, _] _ at harguments
  obtain _ | ⟨hsource, _ | ⟨hstart, _ | ⟨htarget, _ | ⟨hplace, _ | ⟨hlength, _ | _⟩⟩⟩⟩⟩ :=
    harguments
  obtain ⟨source, rfl⟩ := hsource.eq_reference
  obtain ⟨start, rfl⟩ := hstart.eq_int rfl
  obtain ⟨target, rfl⟩ := htarget.eq_reference
  obtain ⟨place, rfl⟩ := hplace.eq_int rfl
  obtain ⟨length, rfl⟩ := hlength.eq_int rfl
  refine leaves_pop (popInt_append _ length) (leaves_pop (popInt_append _ place) ?_)
  refine leaves_popObject fun _ => leaves_pop (popInt_append _ start) ?_
  exact leaves_popObject fun _ => leaves_onMachine fun _ => .nothing

/-!
# Types
-/

theorem leaves_popText {α : Type} {use : String} {target : Reference} {f : String → NativeM α}
    {Q : α → OperandStack → Prop} (hf : ∀ text, Leaves (f text) s Q) :
    Leaves (popText use >>= f) (s.append (.reference target)) Q := by
  refine leaves_bind (P := fun _ s' => s' = s) ?_ ?_
  · exact leaves_popObject fun _ => leaves_get fun _ => leaves_lift fun _ => rfl
  · rintro text _ rfl
    exact hf text

theorem leaves_popElement {α : Type} {target : Reference} {f : Element → NativeM α}
    {Q : α → OperandStack → Prop} (hf : ∀ element, Leaves (f element) s Q) :
    Leaves (popElement >>= f) (s.append (.reference target)) Q := by
  refine leaves_bind (P := fun _ s' => s' = s) ?_ ?_
  · refine leaves_popObject fun _ => leaves_machine fun i => ?_
    cases hname : i.reflects with
    | none => exact leaves_throw _
    | some name =>
        dsimp only
        cases hcomponent : Descriptor.component? name with
        | none => exact leaves_throw _
        | some component =>
            dsimp only
            exact leaves_liftMalformed fun _ => rfl
  · rintro element _ rfl
    exact hf element

theorem getPrimitiveClass_declared :
    (ofStatic [.reference] .reference).Describes getPrimitiveClass :=
  describes_ofReference rfl fun _ _ _ =>
    leaves_popText fun _ => leaves_machine fun _ => leaves_result (.reference _) rfl

theorem isPrimitive_declared : (ofInstance [] .boolean).Describes isPrimitive :=
  describes_ofReference rfl fun _ _ _ =>
    leaves_popObject fun _ => leaves_get fun _ => leaves_result (.int _) rfl

theorem desiredAssertionStatus_declared :
    (ofStatic [.reference] .boolean).Describes desiredAssertionStatus :=
  describes_ofReference rfl fun _ s target =>
    leaves_pop (popReference_append s target) (leaves_result (.int _) rfl)

theorem getName_declared : (ofInstance [] .reference).Describes getName := by
  apply describes_ofReference rfl
  intro load s target
  refine leaves_popObject fun _ => leaves_machine fun i => ?_
  cases i.reflects with
  | none => exact leaves_throw _
  | some name => exact leaves_machine fun _ => leaves_result (.reference _) rfl

theorem forName_declared :
    (ofStatic [.reference, .boolean, .reference, .reference] .reference).Describes forName := by
  intro load below arguments harguments
  change List.Forall₂ _ [_, _, _, _] _ at harguments
  obtain _ | ⟨hname, _ | ⟨hflag, _ | ⟨hloader, _ | ⟨hcaller, _ | _⟩⟩⟩⟩ := harguments
  obtain ⟨name, rfl⟩ := hname.eq_reference
  obtain ⟨flag, rfl⟩ := hflag.eq_int rfl
  obtain ⟨loader, rfl⟩ := hloader.eq_reference
  obtain ⟨caller, rfl⟩ := hcaller.eq_reference
  refine leaves_pop (popReference_append _ caller) ?_
  refine leaves_pop (popReference_append _ loader) (leaves_pop (popInt_append _ flag) ?_)
  exact leaves_popText fun _ => leaves_machine fun _ =>
    leaves_result (.reference _) rfl

/-- The receiver lies below the array class, of which only the element kind counts. -/
theorem describes_ofElement (number : Element → Int32) :
    (ofInstance [.reference] .int).Describes (fun _ => do
      let element ← popElement
      let _ ← popReference
      pushInt (number element)) := by
  intro load below arguments harguments
  change List.Forall₂ _ [_, _] _ at harguments
  obtain _ | ⟨hreceiver, _ | ⟨htype, _ | _⟩⟩ := harguments
  obtain ⟨receiver, rfl⟩ := hreceiver.eq_reference
  obtain ⟨type, rfl⟩ := htype.eq_reference
  exact leaves_popElement fun _ => leaves_pop (popReference_append below receiver)
    (leaves_result (.int _) rfl)

theorem arrayBaseOffset_declared : (ofInstance [.reference] .int).Describes arrayBaseOffset :=
  describes_ofElement fun _ => 0

theorem arrayIndexScale_declared : (ofInstance [.reference] .int).Describes arrayIndexScale :=
  describes_ofElement fun element => Int32.ofNat element.width

/-!
# Numbers and texts
-/

theorem floatToRawIntBits_declared : (ofStatic [.float] .int).Describes floatToRawIntBits := by
  apply describes_singleton rfl
  intro load s value hadmits
  obtain ⟨word, rfl⟩ := hadmits.eq_float
  exact leaves_pop (popFloat_append s word) (leaves_result (.int _) rfl)

theorem intBitsToFloat_declared : (ofStatic [.int] .float).Describes intBitsToFloat := by
  apply describes_singleton rfl
  intro load s value hadmits
  obtain ⟨number, rfl⟩ := hadmits.eq_int rfl
  exact leaves_pop (popInt_append s number) (leaves_result (.float _) rfl)

theorem doubleToRawLongBits_declared :
    (ofStatic [.double] .long).Describes doubleToRawLongBits := by
  apply describes_singleton rfl
  intro load s value hadmits
  obtain ⟨word, rfl⟩ := hadmits.eq_double
  exact leaves_pop (popDouble_append s word) (leaves_result (.long _) rfl)

theorem longBitsToDouble_declared : (ofStatic [.long] .double).Describes longBitsToDouble := by
  apply describes_singleton rfl
  intro load s value hadmits
  obtain ⟨number, rfl⟩ := hadmits.eq_long
  exact leaves_pop (popLong_append s number) (leaves_result (.double _) rfl)

theorem intern_declared : (ofInstance [] .reference).Describes intern :=
  describes_ofReference rfl fun _ _ _ =>
    leaves_popObject fun _ => leaves_result (.reference _) rfl

theorem isBigEndian_declared : (ofStatic [] .boolean).Describes isBigEndian :=
  describes_nil rfl fun _ _ => leaves_result (.int _) rfl

/-!
# Environment
-/

theorem doNothing_declared : (ofStatic [] .void).Describes doNothing :=
  describes_nil rfl fun _ _ => leaves_pure .nothing

theorem dropArgument_declared : (ofStatic [.reference] .void).Describes dropArgument :=
  describes_ofReference rfl fun _ s target =>
    leaves_pop (popReference_append s target) (leaves_pure .nothing)

theorem platformProperties_declared : (ofStatic [] .reference).Describes platformProperties :=
  describes_nil rfl fun _ _ => leaves_machine fun _ => leaves_result (.reference _) rfl

theorem vmProperties_declared : (ofStatic [] .reference).Describes vmProperties :=
  describes_nil rfl fun _ _ =>
    leaves_machine fun _ => leaves_machine fun _ => leaves_result (.reference _) rfl

theorem maxMemory_declared : (ofInstance [] .long).Describes maxMemory :=
  describes_ofReference rfl fun _ s target =>
    leaves_pop (popReference_append s target)
      (leaves_result (.long _) rfl)

/-!
# Calls
-/

theorem library_declared :
    List.Forall₂ (fun row entry => row.1 = entry.1 ∧ entry.2.Describes row.2) library
      declarations :=
  .cons ⟨rfl, hashCode_declared⟩ <|
  .cons ⟨rfl, getClass_declared⟩ <|
  .cons ⟨rfl, identityHashCode_declared⟩ <|
  .cons ⟨rfl, arrayCopy_declared⟩ <|
  .cons ⟨rfl, getPrimitiveClass_declared⟩ <|
  .cons ⟨rfl, isPrimitive_declared⟩ <|
  .cons ⟨rfl, desiredAssertionStatus_declared⟩ <|
  .cons ⟨rfl, getName_declared⟩ <|
  .cons ⟨rfl, forName_declared⟩ <|
  .cons ⟨rfl, floatToRawIntBits_declared⟩ <|
  .cons ⟨rfl, intBitsToFloat_declared⟩ <|
  .cons ⟨rfl, doubleToRawLongBits_declared⟩ <|
  .cons ⟨rfl, longBitsToDouble_declared⟩ <|
  .cons ⟨rfl, intern_declared⟩ <|
  .cons ⟨rfl, isBigEndian_declared⟩ <|
  .cons ⟨rfl, doNothing_declared⟩ <|
  .cons ⟨rfl, dropArgument_declared⟩ <|
  .cons ⟨rfl, arrayBaseOffset_declared⟩ <|
  .cons ⟨rfl, arrayIndexScale_declared⟩ <|
  .cons ⟨rfl, platformProperties_declared⟩ <|
  .cons ⟨rfl, vmProperties_declared⟩ <|
  .cons ⟨rfl, maxMemory_declared⟩ .nil

theorem describes_of_lookup {natives : NativeTable}
    {entries : List ((String × String) × Declaration)} {name : String × String} {d : Declaration}
    (h : List.Forall₂ (fun row entry => row.1 = entry.1 ∧ entry.2.Describes row.2) natives entries)
    (hd : entries.lookup name = some d) :
    ∃ native, natives.lookup name = some native ∧ d.Describes native := by
  induction h with
  | nil => cases hd
  | @cons row entry _ _ hfirst _ ih =>
      obtain ⟨rowName, native⟩ := row
      obtain ⟨entryName, d'⟩ := entry
      obtain ⟨rfl, hdescribes⟩ := hfirst
      by_cases hname : name = rowName
      · subst hname
        rw [List.lookup_cons_self] at hd ⊢
        cases hd
        exact ⟨native, rfl, hdescribes⟩
      · have hne : (name == rowName) = false := beq_eq_false_iff_ne.mpr hname
        rw [List.lookup_cons, hne] at hd ⊢
        exact ih hd

theorem name_ne_registerNatives {owner name : String} {d : Declaration}
    (h : declarations.lookup (owner, name) = some d) : name ≠ "registerNatives" := by
  have hall : ∀ entry ∈ declarations, entry.1.2 ≠ "registerNatives" := by decide
  exact hall _ (mem_of_lookup h)

structure Declaration.Declares (d : Declaration) (method : Method) : Prop where
  found : declarations.lookup (method.owner, method.name) = some d
  native : method.isNative = true
  isStatic : method.isStatic = d.isStatic
  signature : method.signature = d.signature

theorem Declaration.Declares.parameters {d : Declaration} {method : Method}
    (h : d.Declares method) : d.parameters = method.parameters := by
  rw [Declaration.parameters, Method.parameters, h.isStatic, h.signature]

theorem call_leaves {d : Declaration} {method : Method} {natives : NativeTable}
    (h : d.Declares method)
    (hfound : natives.find? method.owner method.name = library.find? method.owner method.name)
    {arguments : List Value}
    (harguments : List.Forall₂ ValueType.Admits method.parameters arguments)
    (load : Loader) (below : OperandStack) :
    Leaves (natives.call load method) (arguments.foldl append below) fun _ s =>
      below.Receives method.signature.returns s := by
  obtain ⟨native, hlookup, hdescribes⟩ := describes_of_lookup library_declared h.found
  rw [show library.find? method.owner method.name = some native from hlookup] at hfound
  unfold NativeTable.call
  rw [if_neg (name_ne_registerNatives h.found), hfound, h.signature]
  rw [← h.parameters] at harguments
  exact hdescribes load below arguments harguments

end Native

/-!
# Printing
-/

namespace Print

open NativeM

theorem emit_leaves (method : Method) (text : String) (s : OperandStack) (target : Reference) :
    Leaves (emit method text) (s.append (.reference target)) fun _ s' => s' = s := by
  refine leaves_pop (popReference_append s target) ?_
  intro m u w hrun
  cases hrun
  rfl

theorem onNull_leaves {method : Method} (hprint : isPrint method = true) {arguments : List Value}
    (harguments : List.Forall₂ ValueType.Admits method.signature.arguments arguments)
    (hone : arguments.length ≤ 1) (below : OperandStack) (target : Reference) :
    Leaves (onNull method) (arguments.foldl append (below.append (.reference target)))
      fun printed s => printed = true ∧ s = below := by
  unfold onNull
  rw [hprint]
  cases htypes : method.signature.arguments with
  | nil =>
      rw [htypes] at harguments
      cases harguments
      refine leaves_bind (emit_leaves method "" below target) ?_
      rintro _ _ rfl
      exact leaves_pure ⟨rfl, rfl⟩
  | cons type types =>
      rw [htypes] at harguments
      cases harguments with
      | @cons _ value _ _ hadmits hrest =>
          cases hrest with
          | nil =>
              refine leaves_pop (popValue_append hadmits _) ?_
              refine leaves_get fun _ => leaves_checked fun text => ?_
              refine leaves_bind (emit_leaves method text below target) ?_
              rintro _ _ rfl
              exact leaves_pure ⟨rfl, rfl⟩
          | cons _ _ =>
              rw [List.length_cons, List.length_cons] at hone
              omega

theorem eq_of_onNull_false {method : Method} {w w' : Workspace}
    (h : onNull method w = .ok false w') : w' = w := by
  unfold onNull at h
  cases hprint : isPrint method with
  | false =>
      rw [hprint] at h
      cases h
      rfl
  | true =>
      rw [hprint] at h
      cases htypes : method.signature.arguments with
      | nil =>
          rw [htypes] at h
          obtain ⟨_, _, _, h⟩ := bind_eq_ok h
          cases h
      | cons type types =>
          rw [htypes] at h
          cases types with
          | nil =>
              obtain ⟨_, _, _, h⟩ := bind_eq_ok h
              obtain ⟨_, _, _, h⟩ := bind_eq_ok h
              obtain ⟨_, _, _, h⟩ := bind_eq_ok h
              obtain ⟨_, _, _, h⟩ := bind_eq_ok h
              cases h
          | cons _ _ =>
              cases h
              rfl

end Print

namespace Exec

variable {α : Type} {x : NativeM α} {a a' : Activation} {b : α}

theorem onWorkspace_eq_ok (h : (liftM x : Exec α) a = .ok b a') :
    ∃ w, x ⟨a.frame.stack, a.machine⟩ = .ok b w ∧
      a' = ⟨{ a.frame with stack := w.stack }, w.machine⟩ := by
  obtain ⟨f, m⟩ := a
  change Activation.onWorkspace x ⟨f, m⟩ = _ at h
  cases hx : x ⟨f.stack, m⟩ with
  | ok c w =>
      simp only [Activation.onWorkspace, hx] at h
      cases h
      exact ⟨w, rfl, rfl⟩
  | error e w =>
      simp only [Activation.onWorkspace, hx] at h
      cases h

end Exec

namespace Thread

variable {host : Host} {load : Loader} {method : Method} {m : Machine} {caller : Frame}
  {rest : List Frame} {r : Option Value} {t : Thread}

theorem dispatch_native_eq_ok (hnative : method.isNative = true)
    (h : dispatch host load method ⟨m, caller :: rest, r⟩ = .ok () t) :
    ∃ w, host.natives.call load method ⟨caller.stack, m⟩ = .ok () w ∧
      t = ⟨w.machine, { caller with stack := w.stack } :: rest, r⟩ := by
  unfold dispatch at h
  rw [if_pos hnative, onFrame_cons] at h
  cases hcall : (liftM (host.natives.call load method) : Exec Unit) ⟨caller, m⟩ with
  | ok u a =>
      rw [hcall] at h
      cases h
      obtain ⟨w, hw, rfl⟩ := Exec.onWorkspace_eq_ok hcall
      exact ⟨w, hw, rfl⟩
  | error e a =>
      rw [hcall] at h
      cases h

end Thread

theorem Exec.receiver_none {method : Method} {f : Frame} {m : Machine} {target : Reference}
    {arguments : List Value} {below : OperandStack} {a : Activation}
    (harguments : List.Forall₂ ValueType.Admits method.signature.arguments arguments)
    (hstack : f.stack = arguments.foldl append (below.append (.reference none)))
    (h : receiver method ⟨f, m⟩ = .ok target a) : target = none := by
  obtain ⟨hslot, -⟩ := receiver_eq_ok h
  have hwidth : method.signature.argumentSlots = (ofValues arguments).slots.length := by
    rw [Descriptor.Signature.argumentSlots, ← Value.width_of_admits harguments, ← size_ofValues,
      size]
  have hslots : f.stack.slots[method.signature.argumentSlots]? = some (.reference none) := by
    rw [hstack, foldl_append_slots, hwidth, List.getElem?_append_right (Nat.le_refl _),
      Nat.sub_self]
    rfl
  rw [hslots] at hslot
  cases hslot
  rfl

/-- Every built-in native method has a declaration, and a call of it that ends well takes its
arguments off the stack of the caller and leaves one value of its type, or nothing.  A call of a
printing method on a null reference takes off the receiver and the argument; a call that is left to
others changes neither the stack nor the output. -/
theorem Native.stack_in_order :
    library.map Prod.fst = declarations.map Prod.fst ∧
    (∀ (host : Host) (load : Loader) (d : Declaration) (method : Method), d.Declares method →
      host.natives.find? method.owner method.name = library.find? method.owner method.name →
      ∀ (arguments : List Value), List.Forall₂ ValueType.Admits method.parameters arguments →
        ∀ (below : OperandStack) (caller : Frame), caller.stack = arguments.foldl append below →
          ∀ (m : Machine) (rest : List Frame) (r : Option Value) (t : Thread),
            Thread.dispatch host load method ⟨m, caller :: rest, r⟩ = .ok () t →
              ∃ stack, below.Receives method.signature.returns stack ∧
                t.frames = { caller with stack } :: rest ∧ t.result = r) ∧
    (∀ (load : Loader) (index : UInt16) (method : Method), Print.isPrint method = true →
      ∀ (arguments : List Value), arguments.length ≤ 1 →
        List.Forall₂ ValueType.Admits method.signature.arguments arguments →
        ∀ (below : OperandStack) (caller : Frame),
          caller.stack = arguments.foldl append (below.append (.reference none)) →
          ∀ (m m' : Machine), caller.pool.resolveMethod load index m = .ok method m' →
            ∀ (effect : Effect) (a : Activation),
              Exec.invokeVirtual load index ⟨caller, m⟩ = .ok effect a →
                effect = .next ∧ a.frame = { caller with stack := below }) ∧
    ∀ (method : Method) (w w' : Workspace), Print.onNull method w = .ok false w' → w' = w := by
  refine ⟨rfl, ?_, ?_, ?_⟩
  · intro host load d method hdeclares hfound arguments harguments below caller hstack m rest r t h
    obtain ⟨w, hcall, rfl⟩ := Thread.dispatch_native_eq_ok hdeclares.native h
    rw [hstack] at hcall
    exact ⟨w.stack, call_leaves hdeclares hfound harguments load below m () w hcall, rfl, rfl⟩
  · intro load index method hprint arguments hone harguments below caller hstack m m' hresolve
      effect a h
    unfold Exec.invokeVirtual at h
    obtain ⟨f, a₀, hframe, h⟩ := bind_eq_ok h
    cases hframe
    rw [bind_of_ok (Exec.onMachine_of_ok hresolve)] at h
    cases hstatic : method.isStatic with
    | true =>
        simp only [hstatic, if_true] at h
        cases h
    | false =>
        simp only [hstatic, Bool.false_eq_true, if_false] at h
        obtain ⟨target, a₁, hreceiver, h⟩ := bind_eq_ok h
        obtain ⟨-, rfl⟩ := Exec.receiver_eq_ok hreceiver
        -- the receiver of a print is the null reference, so no object selects another method
        cases Exec.receiver_none harguments hstack hreceiver
        obtain ⟨printed, a₂, hprinted, h⟩ := bind_eq_ok h
        obtain ⟨w, hw, rfl⟩ := Exec.onWorkspace_eq_ok hprinted
        rw [show (⟨caller, m'⟩ : Activation).frame.stack = _ from hstack] at hw
        obtain ⟨rfl, hbelow⟩ :=
          Print.onNull_leaves hprint harguments hone below none m' printed w hw
        cases h
        rw [hbelow]
        exact ⟨rfl, rfl⟩
  · intro method w w' h
    exact Print.eq_of_onNull_false h

namespace WideArguments

def toBits : Method :=
  ⟨"java/lang/Double", "doubleToRawLongBits", "(D)J", .ofWord 0x0109, ⟨[.double], .long⟩, 0, 0,
    #[], [], rfl⟩

theorem signature_println : Descriptor.signature "(J)V" = .ok ⟨[.long], .void⟩ :=
  rfl

def println : Method :=
  ⟨"java/io/PrintStream", "println", "(J)V", .ofWord 0x0001, ⟨[.long], .void⟩, 0, 3, #[0xB1], [],
    signature_println⟩

def stream : Class :=
  .mk ⟨"java/io/PrintStream", .ofWord 0x0021, [], [], [println]⟩ none []

def pool : Pool :=
  ⟨#[.unusable, .methodRef 2 3, .classRef 4, .nameAndType 5 6, .utf8 "java/io/PrintStream",
    .utf8 "println", .utf8 "(J)V"]⟩

def load : Loader :=
  fun _ => return .ofClass stream

def host : Host :=
  ⟨ClassPath.ofRows [], Native.library, 8, false⟩

def caller (stack : OperandStack) : Frame :=
  { Frame.enter println stream ⟨"A", pool⟩ [] with stack }

/-- A native method takes two slots off and puts two on, a print takes three off, and the operand
under them stays. -/
theorem wide_in_order :
    (∃ t stack, Thread.dispatch host load toBits
        ⟨.empty, [caller (append ⟨[.int 7]⟩ (.double 0x3FF0000000000000))], none⟩ = .ok () t ∧
      Receives ⟨[.int 7]⟩ .long stack ∧ t.frames = [caller stack]) ∧
    (∃ a, Exec.invokeVirtual load 1
        ⟨caller ((append ⟨[.int 7]⟩ (.reference none)).append (.long 5)), .empty⟩ = .ok .next a ∧
      a.frame = caller ⟨[.int 7]⟩) ∧
    Print.onNull toBits ⟨⟨[.int 7]⟩, .empty⟩ = .ok false ⟨⟨[.int 7]⟩, .empty⟩ := by
  have hdeclares : Native.Declaration.Declares (.ofStatic [.double] .long) toBits :=
    ⟨rfl, rfl, rfl, rfl⟩
  have hdouble : List.Forall₂ ValueType.Admits [.double] [.double 0x3FF0000000000000] :=
    .cons rfl .nil
  have hlong : List.Forall₂ ValueType.Admits [.long] [.long 5] := .cons rfl .nil
  refine ⟨?_, ?_, ?_⟩
  · have hcall : Thread.dispatch host load toBits
        ⟨.empty, [caller (append ⟨[.int 7]⟩ (.double 0x3FF0000000000000))], none⟩ =
          .ok () _ := rfl
    obtain ⟨stack, hreceives, hframes, -⟩ :=
      Native.stack_in_order.2.1 host load _ toBits hdeclares rfl _ hdouble ⟨[.int 7]⟩ _ rfl _ _ _ _
        hcall
    exact ⟨_, stack, hcall, hreceives, hframes⟩
  · have hcall : Exec.invokeVirtual load 1
        ⟨caller ((append ⟨[.int 7]⟩ (.reference none)).append (.long 5)), .empty⟩ =
          .ok .next _ := rfl
    obtain ⟨-, hframe⟩ :=
      Native.stack_in_order.2.2.1 load 1 println (by decide) [.long 5] (by decide) hlong
        ⟨[.int 7]⟩ _ rfl _ _ rfl _ _ hcall
    exact ⟨_, hcall, hframe⟩
  · have hcall : Print.onNull toBits ⟨⟨[.int 7]⟩, .empty⟩ = .ok false _ := rfl
    rw [Native.stack_in_order.2.2.2 _ _ _ hcall] at hcall
    exact hcall

end WideArguments
end Bytecode
