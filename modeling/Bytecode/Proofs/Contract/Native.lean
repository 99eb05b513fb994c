import Bytecode.Proofs.Contract.Machine

/-!
# Native methods under a charter

A native method is lawful when it keeps every contract that its loader keeps.  All built-in methods
are, and they keep every charter as well.
-/

namespace Bytecode

variable {α : Type}

def Contract.workspace (C : Contract) : Terms Workspace where
  inv w := C.inv w.machine
  rel w w' := C.rel w.machine w'.machine
  err := C.err
  rel_refl w := C.rel_refl w.machine
  rel_trans := C.rel_trans

namespace Charter

variable {C : Charter} {load₁ load₂ : Loader}

def workspace (C : Charter) : Terms Workspace where
  inv w := C.inv w.machine
  rel w w' := C.rel w.machine w'.machine
  err := C.err
  rel_refl w := C.rel_refl w.machine
  rel_trans := C.rel_trans

theorem workspace_onStack {x : StackM α} (h : OperandStack.Fails x) :
    C.workspace.Same (liftM x) (liftM x) := by
  intro w hinv _
  refine ⟨rfl, ?_⟩
  show C.workspace.Ends _ w (Workspace.onStack x w)
  cases hx : x w.stack with
  | ok a stack =>
      simp only [Workspace.onStack, hx]
      exact ⟨hinv, C.rel_refl _, trivial⟩
  | error f stack =>
      simp only [Workspace.onStack, hx]
      exact ⟨hinv, C.rel_refl _, C.ordinary (h _ _ _ hx)⟩

theorem workspace_onMachine_alike {P : Machine → Prop} {Q : α → Machine → Prop}
    {x y : MachineM α} (h : C.Alike P Q x y) :
    C.workspace.Alike (fun w => P w.machine) (fun a w => Q a w.machine) (liftM x) (liftM y) := by
  refine Terms.Alike.onPart Workspace.onMachine Workspace.machine (fun w m => ⟨w.stack, m⟩)
    ?_ h ?_ ?_ (fun _ _ _ hq => hq) fun _ hf => hf
  · intro z w
    cases hz : z w.machine <;> simp only [Workspace.onMachine, Terms.mapState, hz]
  · intro w hinv hP
    exact ⟨hinv, hP⟩
  · intro w m _ hinv hrel
    exact ⟨hinv, hrel⟩

theorem workspace_onMachine {x y : MachineM α} (h : C.Same x y) :
    C.workspace.Same (liftM x) (liftM y) :=
  workspace_onMachine_alike h

theorem workspace_lift {x : Except Fault α} (h : FailsWith Fault.Ordinary x) :
    C.workspace.Same (liftM x) (liftM x) :=
  .lift fun f hf => C.ordinary (h f hf)

theorem workspace_fail {f : Fault} (h : f.Ordinary) :
    C.workspace.Same (α := α) (fail f) (fail f) :=
  .fail (C.ordinary h)

end Charter

open Charter OperandStack

/-- The method keeps every contract that its loader keeps. -/
def Native.Lawful (native : Native) : Prop :=
  ∀ {C : Contract} {load₁ load₂ : Loader},
    C.Loaders load₁ load₂ → C.workspace.Same (native load₁) (native load₂)

def NativeTable.Lawful (t : NativeTable) : Prop :=
  ∀ row ∈ t, Native.Lawful row.2

def Native.Keeps (C : Charter) (native : Native) : Prop :=
  ∀ {load₁ load₂ : Loader},
    C.Loaders load₁ load₂ → C.workspace.Same (native load₁) (native load₂)

def NativeTable.Keeps (t : NativeTable) (C : Charter) : Prop :=
  ∀ row ∈ t, Native.Keeps C row.2

theorem NativeTable.Lawful.keeps {t : NativeTable} (h : t.Lawful) (C : Contract) :
    t.Keeps C.charter := fun row hrow _ _ hload => h row hrow (C := C) hload

/-!
# Calls
-/

theorem NativeTable.Keeps.find? {C : Charter} {t : NativeTable} (h : t.Keeps C)
    {owner method : String} {native : Native} (hfind : t.find? owner method = some native) :
    native.Keeps C := by
  rcases List.lookup_eq_some_iff.mp hfind with ⟨before, after, hsplit, -⟩
  refine h ((owner, method), native) ?_
  rw [hsplit]
  exact List.mem_append_right before List.mem_cons_self

namespace Charter

variable {C : Charter} {load₁ load₂ : Loader}

theorem call_same {t : NativeTable} (ht : t.Keeps C) (h : C.Loaders load₁ load₂) (m : Method) :
    C.workspace.Same (t.call load₁ m) (t.call load₂ m) := by
  refine .ite (fun _ => .pure ()) fun _ => ?_
  split
  next hfind => exact ht.find? hfind h
  next => exact workspace_fail nofun

theorem emit_same (m : Method) (text : String) :
    C.workspace.Same (Print.emit m text) (Print.emit m text) :=
  (workspace_onStack popReference_fails).bind fun _ =>
    .modify fun _ hinv => C.work hinv ⟨rfl, rfl, rfl, rfl⟩ (Machine.Grows.of_eq rfl) fun hg =>
      (C.ground hinv hg).congr rfl rfl rfl rfl

theorem onNull_same (m : Method) : C.workspace.Same (Print.onNull m) (Print.onNull m) := by
  refine .ite (fun _ => .pure false) fun _ => ?_
  split
  · exact (emit_same m "").bind fun _ => .pure true
  · refine (workspace_onStack (popValue_fails _)).bind fun value => .get_bind fun w => ?_
    exact (workspace_lift (Print.valueText_fails _ _ _ value)).bind fun text =>
      (emit_same m text).bind fun _ => .pure true
  · exact .pure false

end Charter

/-!
# Built-in methods
-/

namespace Native

variable {C : Charter} {load₁ load₂ : Loader}

theorem popText_same (use : String) : C.workspace.Same (popText use) (popText use) :=
  (workspace_onStack (popObject_fails use)).bind fun address =>
    .get_bind fun w => workspace_lift (w.machine.textOf_fails address)

theorem popElement_same : C.workspace.Same popElement popElement := by
  refine (workspace_onStack (popObject_fails _)).bind fun address =>
    (workspace_onMachine (instanceAt_same address)).bind fun i => ?_
  split
  · split
    · exact .liftMalformed fun f hf => C.ordinary (Element.ofComponent_fails _ f hf).ordinary
    · exact workspace_fail nofun
  · exact workspace_fail nofun

theorem pushObject_same {x y : MachineM Nat} (h : C.Same x y) :
    C.workspace.Same (do pushReference (some (← x))) (do pushReference (some (← y))) :=
  (workspace_onMachine h).bind fun _ => workspace_onStack (push_fails _)

theorem keeps_of_stack {pop : StackM α} {k : α → StackM Unit} (hpop : Fails pop)
    (hk : ∀ a, Fails (k a)) : Keeps C (fun _ => do k (← pop)) :=
  fun _ => (workspace_onStack hpop).bind fun a => workspace_onStack (hk a)

theorem identityHashCode_keeps : Keeps C identityHashCode := by
  intro _ _ _
  refine (workspace_onStack popReference_fails).bind fun target => ?_
  cases target with
  | some address => exact workspace_onStack (push_fails _)
  | none => exact workspace_onStack (push_fails _)

theorem getClass_keeps : Keeps C getClass := fun h =>
  (workspace_onStack (popObject_fails _)).bind fun address =>
    (workspace_onMachine (object_same address)).bind fun o =>
      pushObject_same (typeObject_same h o.className)

theorem arrayCopy_keeps : Keeps C arrayCopy := fun _ =>
  (workspace_onStack popInt_fails).bind fun _ => (workspace_onStack popInt_fails).bind fun _ =>
    (workspace_onStack (popObject_fails _)).bind fun _ =>
      (workspace_onStack popInt_fails).bind fun _ =>
        (workspace_onStack (popObject_fails _)).bind fun _ =>
          workspace_onMachine (copyElements_same _ _ _ _ _)

theorem getPrimitiveClass_keeps : Keeps C getPrimitiveClass := fun h =>
  (popText_same _).bind fun name =>
    pushObject_same (primitiveClassObject_same (loadClass_has h classClassName) name)

theorem isPrimitive_keeps : Keeps C isPrimitive := fun _ =>
  (workspace_onStack (popObject_fails _)).bind fun _ =>
    .get_bind fun _ => workspace_onStack (push_fails _)

theorem getName_keeps : Keeps C getName := by
  intro _ _ h
  refine (workspace_onStack (popObject_fails _)).bind fun address =>
    (workspace_onMachine (instanceAt_same address)).bind fun i => ?_
  split
  · exact pushObject_same (newString_same h _)
  · exact workspace_fail nofun

theorem forName_keeps : Keeps C forName := fun h =>
  (workspace_onStack popReference_fails).bind fun _ =>
    (workspace_onStack popReference_fails).bind fun _ =>
      (workspace_onStack popInt_fails).bind fun _ =>
        (popText_same _).bind fun _ => pushObject_same (typeObject_same h _)

theorem arrayBaseOffset_keeps : Keeps C arrayBaseOffset := fun _ =>
  popElement_same.bind fun _ => (workspace_onStack popReference_fails).bind fun _ =>
    workspace_onStack (push_fails _)

theorem arrayIndexScale_keeps : Keeps C arrayIndexScale := fun _ =>
  popElement_same.bind fun _ => (workspace_onStack popReference_fails).bind fun _ =>
    workspace_onStack (push_fails _)

theorem platformProperties_keeps : Keeps C platformProperties := fun h =>
  pushObject_same (newArray_same h _ _)

theorem vmProperties_keeps : Keeps C vmProperties := fun h =>
  (workspace_onMachine (newArray_same h _ _)).bind fun address =>
    (workspace_onMachine (storeTexts_same h address _ _)).bind fun _ =>
      workspace_onStack (push_fails _)

theorem library_keeps (C : Charter) : NativeTable.Keeps library C := by
  simp only [NativeTable.Keeps, library, List.forall_mem_cons, List.not_mem_nil,
    false_implies, implies_true, and_true]
  refine ⟨?_, getClass_keeps, identityHashCode_keeps, arrayCopy_keeps,
    getPrimitiveClass_keeps, isPrimitive_keeps, ?_, getName_keeps, forName_keeps,
    ?_, ?_, ?_, ?_, ?_, ?_, ?_, ?_, arrayBaseOffset_keeps, arrayIndexScale_keeps,
    platformProperties_keeps, vmProperties_keeps, ?_⟩
  · exact keeps_of_stack (popObject_fails _) fun _ => push_fails _
  · exact keeps_of_stack popReference_fails fun _ => push_fails _
  · exact keeps_of_stack popFloat_fails fun _ => push_fails _
  · exact keeps_of_stack popInt_fails fun _ => push_fails _
  · exact keeps_of_stack popDouble_fails fun _ => pushLong_fails _
  · exact keeps_of_stack popLong_fails fun _ => pushLong_fails _
  · exact keeps_of_stack (popObject_fails _) fun _ => push_fails _
  · exact fun _ => workspace_onStack (push_fails _)
  · exact fun _ => .pure ()
  · exact fun _ => (workspace_onStack popReference_fails).bind fun _ => .pure ()
  · exact keeps_of_stack popReference_fails fun _ => pushLong_fails _

theorem library_lawful : NativeTable.Lawful library := fun row hrow C _ _ h =>
  library_keeps C.charter row hrow h

end Native
end Bytecode
