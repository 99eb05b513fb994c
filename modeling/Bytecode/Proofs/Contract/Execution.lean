import Bytecode.Proofs.Contract.Native

/-!
# Instructions under a charter

An instruction keeps every charter that its loader keeps, and never changes which constant table and
which class its frame refers to.  A method that it calls belongs to a registered class.
-/

namespace Bytecode

variable {α β : Type}

open OperandStack Contract

namespace Charter

variable {C : Charter} {load₁ load₂ : Loader}

/-- The frame has a constant table of the machine and runs a method of a registered class. -/
def Knows (C : Charter) (f : Frame) (m : Machine) : Prop :=
  Known f.pool m ∧ C.Has f.cls m

theorem Knows.keep {f : Frame} {m m' : Machine} (hrel : C.rel m m') (h : C.Knows f m) :
    C.Knows f m' :=
  ⟨C.pools hrel h.1, h.2.keep hrel⟩

def activation (C : Charter) : Terms Activation where
  inv a := C.inv a.machine ∧ C.Knows a.frame a.machine
  rel a a' := C.rel a.machine a'.machine ∧ a'.frame.pool = a.frame.pool ∧
    a'.frame.cls = a.frame.cls
  err := C.err
  rel_refl a := ⟨C.rel_refl a.machine, rfl, rfl⟩
  rel_trans h h' := ⟨C.rel_trans h.1 h'.1, h'.2.1.trans h.2.1, h'.2.2.trans h.2.2⟩

theorem activation_keeps {a : Activation} (a' : Activation) (h : C.activation.inv a)
    (hinv : C.inv a'.machine) (hrel : C.rel a.machine a'.machine)
    (hpool : a'.frame.pool = a.frame.pool) (hcls : a'.frame.cls = a.frame.cls) :
    C.activation.inv a' ∧ C.activation.rel a a' := by
  refine ⟨⟨hinv, ?_, ?_⟩, hrel, hpool, hcls⟩
  · rw [hpool]
    exact C.pools hrel h.2.1
  · rw [hcls]
    exact h.2.2.keep hrel

theorem activation_onWorkspace_alike {P : Machine → Prop} {Q : α → Machine → Prop}
    {x y : NativeM α}
    (h : C.workspace.Alike (fun w => P w.machine) (fun b w => Q b w.machine) x y) :
    C.activation.Alike (fun a => P a.machine) (fun b a => Q b a.machine) (liftM x) (liftM y) := by
  refine Terms.Alike.onPart Activation.onWorkspace (fun a => ⟨a.frame.stack, a.machine⟩)
    (fun a w => ⟨{ a.frame with stack := w.stack }, w.machine⟩) ?_ h ?_ ?_ (fun _ _ _ hq => hq)
    fun _ hf => hf
  · intro z a
    cases hz : z ⟨a.frame.stack, a.machine⟩ <;>
      simp only [Activation.onWorkspace, Terms.mapState, hz]
  · intro a hinv hP
    exact ⟨hinv.1, hP⟩
  · intro a w hinv hinv' hrel
    exact activation_keeps _ hinv hinv' hrel rfl rfl

theorem activation_onWorkspace {x y : NativeM α} (h : C.workspace.Same x y) :
    C.activation.Same (liftM x) (liftM y) :=
  activation_onWorkspace_alike (P := fun _ => True) (Q := fun _ _ => True) h

theorem activation_onStack {x : StackM α} (h : Fails x) :
    C.activation.Same (liftM x) (liftM x) := by
  intro a hinv _
  refine ⟨rfl, ?_⟩
  show C.activation.Ends _ a (Activation.onStack x a)
  cases hx : x a.frame.stack with
  | ok b stack =>
      simp only [Activation.onStack, hx]
      exact ⟨hinv, ⟨C.rel_refl _, rfl, rfl⟩, trivial⟩
  | error f stack =>
      simp only [Activation.onStack, hx]
      exact ⟨hinv, ⟨C.rel_refl _, rfl, rfl⟩, C.ordinary (h _ _ _ hx)⟩

theorem activation_onMachine_alike {P : Machine → Prop} {Q : α → Machine → Prop}
    {x y : MachineM α} (h : C.Alike P Q x y) :
    C.activation.Alike (fun a => P a.machine) (fun b a => Q b a.machine) (liftM x) (liftM y) :=
  activation_onWorkspace_alike (workspace_onMachine_alike h)

theorem activation_onMachine {x y : MachineM α} (h : C.Same x y) :
    C.activation.Same (liftM x) (liftM y) :=
  activation_onMachine_alike h

theorem activation_lift {x : Except Fault α} (h : FailsWith Fault.Ordinary x) :
    C.activation.Same (liftM x) (liftM x) :=
  .lift fun f hf => C.ordinary (h f hf)

theorem activation_liftMalformed {x : Except Malformed α} (h : FailsWith Malformed.Plain x) :
    C.activation.Same (liftM x) (liftM x) :=
  .liftMalformed fun f hf => C.ordinary (h f hf).ordinary

theorem activation_fail {f : Fault} (h : f.Ordinary) :
    C.activation.Same (α := α) (fail f) (fail f) :=
  .fail (C.ordinary h)

theorem frame_bind_alike {Q : α → Activation → Prop} {k l : Frame → Exec α}
    (h : ∀ f, C.activation.Alike (fun a => C.Knows f a.machine) Q (k f) (l f)) :
    C.activation.Alike (fun _ => True) Q (Exec.frame >>= k) (Exec.frame >>= l) := by
  intro a hinv _
  exact h a.frame a hinv hinv.2

theorem frame_bind_same {k l : Frame → Exec α} (h : ∀ f, C.activation.Same (k f) (l f)) :
    C.activation.Same (Exec.frame >>= k) (Exec.frame >>= l) :=
  frame_bind_alike fun f => (h f).alike

theorem setLocals_same (locals : Locals) :
    C.activation.Same (Exec.setLocals locals) (Exec.setLocals locals) :=
  .modify fun _ hinv => ⟨hinv, C.rel_refl _, rfl, rfl⟩

theorem jump_same (offset : Int32) : C.activation.Same (Exec.jump offset) (Exec.jump offset) := by
  intro a hinv _
  refine ⟨rfl, ?_⟩
  rw [Exec.jump_eq]
  cases hf : a.frame.jump offset with
  | ok f =>
      have hkept := Frame.jump_kept hf
      rcases activation_keeps { a with frame := f } hinv hinv.1 (C.rel_refl _) hkept.1 hkept.2 with
        ⟨hinv', hrel'⟩
      exact ⟨hinv', hrel', trivial⟩
  | error f =>
      exact ⟨hinv, ⟨C.rel_refl _, rfl, rfl⟩, C.ordinary (a.frame.jump_fails offset f hf)⟩

/-!
# Variables, arrays and branches
-/

section

variable (C)

theorem loadLocal_same (kind : Kind) (index : Nat) :
    C.activation.Same (Exec.loadLocal kind index) (Exec.loadLocal kind index) :=
  frame_bind_same fun f => (activation_lift (f.locals.read_fails kind index)).bind fun value =>
    activation_onStack (pushValue_fails value)

theorem storeLocal_same (kind : Kind) (index : Nat) :
    C.activation.Same (Exec.storeLocal kind index) (Exec.storeLocal kind index) :=
  (activation_onStack (popKind_fails kind)).bind fun value => frame_bind_same fun f =>
    (activation_lift (f.locals.write_fails index value)).bind fun _ => setLocals_same _

theorem increment_same (index : Nat) (delta : Int32) :
    C.activation.Same (Exec.increment index delta) (Exec.increment index delta) :=
  frame_bind_same fun f => (activation_lift (f.locals.getInt_fails index)).bind fun _ =>
    (activation_lift (f.locals.setInt_fails index _)).bind fun _ => setLocals_same _

theorem arrayLoad_same : C.activation.Same Exec.arrayLoad Exec.arrayLoad :=
  (activation_onStack popInt_fails).bind fun index =>
    (activation_onStack (popObject_fails _)).bind fun address =>
      (activation_onMachine (loadElement_same address index)).bind fun value =>
        activation_onStack (pushValue_fails value)

theorem arrayStore_same (kind : Kind) :
    C.activation.Same (Exec.arrayStore kind) (Exec.arrayStore kind) :=
  (activation_onStack (popKind_fails kind)).bind fun value =>
    (activation_onStack popInt_fails).bind fun index =>
      (activation_onStack (popObject_fails _)).bind fun address =>
        activation_onMachine (storeElement_same address index value)

theorem arrayLength_same : C.activation.Same Exec.arrayLength Exec.arrayLength :=
  (activation_onStack (popObject_fails _)).bind fun address =>
    (activation_onMachine (arrayAt_same address)).bind fun _ => activation_onStack (push_fails _)

theorem branch_same (c : Prop) [Decidable c] (offset : Int32) :
    C.activation.Same (if c then Exec.jump offset else pure ())
      (if c then Exec.jump offset else pure ()) :=
  .ite (fun _ => jump_same offset) fun _ => .pure ()

theorem branchZero_same (condition : Condition) (offset : Int32) :
    C.activation.Same (Exec.branchZero condition offset) (Exec.branchZero condition offset) :=
  (activation_onStack popInt_fails).bind fun _ => branch_same C _ offset

theorem branchInt_same (condition : Condition) (offset : Int32) :
    C.activation.Same (Exec.branchInt condition offset) (Exec.branchInt condition offset) :=
  (activation_onStack popInt_fails).bind fun _ =>
    (activation_onStack popInt_fails).bind fun _ => branch_same C _ offset

theorem branchSame_same (same : Bool) (offset : Int32) :
    C.activation.Same (Exec.branchSame same offset) (Exec.branchSame same offset) :=
  (activation_onStack popReference_fails).bind fun _ =>
    (activation_onStack popReference_fails).bind fun _ => branch_same C _ offset

theorem branchNull_same (null : Bool) (offset : Int32) :
    C.activation.Same (Exec.branchNull null offset) (Exec.branchNull null offset) :=
  (activation_onStack popReference_fails).bind fun _ => branch_same C _ offset

theorem tableSwitch_same (default low high : Int32) (offsets : List Int32) :
    C.activation.Same (Exec.tableSwitch default low high offsets)
      (Exec.tableSwitch default low high offsets) :=
  (activation_onStack popInt_fails).bind fun _ => jump_same _

theorem lookupSwitch_same (default : Int32) (table : Option (List (Int32 × Int32))) :
    C.activation.Same (Exec.lookupSwitch default table) (Exec.lookupSwitch default table) := by
  refine (activation_onStack popInt_fails).bind fun key => ?_
  cases table with
  | some table => exact jump_same _
  | none => exact frame_bind_same fun f => activation_fail nofun

end

/-!
# Objects and fields
-/

theorem newObject_same (h : C.Loaders load₁ load₂) (index : UInt16) :
    C.activation.Same (Exec.newObject load₁ index) (Exec.newObject load₂ index) := by
  refine frame_bind_alike fun f => Terms.Alike.bind
    ((activation_onMachine_alike (resolveClass_alike h f.pool index)).mono (fun _ _ hf => hf.1)
      fun _ _ _ hq => hq) fun c => ?_
  refine .ite (fun _ => .fail_bind (C.ordinary nofun)) fun _ => ?_
  exact (activation_onMachine_alike (alloc_alike (.ofInstance (.ofClass c)))).bind fun _ =>
    activation_onStack (push_fails _)

theorem pushObject_same {x y : MachineM Nat} (h : C.Same x y) :
    C.activation.Same (do pushReference (some (← x))) (do pushReference (some (← y))) :=
  (activation_onMachine h).bind fun _ => activation_onStack (push_fails _)

theorem newArray_exec_same (h : C.Loaders load₁ load₂) (element : Element) :
    C.activation.Same (Exec.newArray load₁ element) (Exec.newArray load₂ element) :=
  (activation_onStack popInt_fails).bind fun _ => pushObject_same (newArray_same h _ _)

theorem newReferenceArray_same (h : C.Loaders load₁ load₂) (index : UInt16) :
    C.activation.Same (Exec.newReferenceArray load₁ index)
      (Exec.newReferenceArray load₂ index) := by
  refine frame_bind_same fun f =>
    (activation_liftMalformed (f.pool.pool.className_fails index)).bind fun component => ?_
  have hrest (name : String) :
      C.activation.Same
        (do let length ← popInt
            pushReference (some (← Machine.newArray load₁ name length)))
        (do let length ← popInt
            pushReference (some (← Machine.newArray load₂ name length))) :=
    (activation_onStack popInt_fails).bind fun _ => pushObject_same (newArray_same h name _)
  refine .ite (fun _ => hrest _) fun _ => ?_
  exact (activation_onMachine (loadClass_same h component)).bind fun _ => hrest _

theorem newMultiArray_exec_same (h : C.Loaders load₁ load₂) (index : UInt16) (dimensions : Nat) :
    C.activation.Same (Exec.newMultiArray load₁ index dimensions)
      (Exec.newMultiArray load₂ index dimensions) :=
  frame_bind_same fun f =>
    (activation_liftMalformed (f.pool.pool.className_fails index)).bind fun _ =>
      .ite (fun _ => .fail_bind (C.ordinary nofun)) fun _ =>
        (activation_onStack (Exec.popLengths_fails dimensions)).bind fun _ =>
          pushObject_same (newMultiArray_same h _ _)

theorem checkCast_same (h : C.Loaders load₁ load₂) (index : UInt16) :
    C.activation.Same (Exec.checkCast load₁ index) (Exec.checkCast load₂ index) := by
  refine frame_bind_same fun f =>
    (activation_liftMalformed (f.pool.pool.className_fails index)).bind fun target =>
      (activation_onStack popReference_fails).bind fun reference => ?_
  cases reference with
  | none => exact activation_onStack (push_fails _)
  | some address =>
      refine (activation_onMachine (isInstanceOf_same h address target)).bind fun fits =>
        .ite (fun _ => ?_) fun _ => activation_onStack (push_fails _)
      exact (activation_onMachine (object_same address)).bind fun o => .fail_bind (C.ordinary nofun)

theorem instanceOf_same (h : C.Loaders load₁ load₂) (index : UInt16) :
    C.activation.Same (Exec.instanceOf load₁ index) (Exec.instanceOf load₂ index) := by
  refine frame_bind_same fun f =>
    (activation_liftMalformed (f.pool.pool.className_fails index)).bind fun target =>
      (activation_onStack popReference_fails).bind fun reference => ?_
  cases reference with
  | none => exact activation_onStack (push_fails _)
  | some address =>
      exact (activation_onMachine (isInstanceOf_same h address target)).bind fun _ =>
        activation_onStack (push_fails _)

theorem getStatic_same (h : C.Loaders load₁ load₂) (index : UInt16) :
    C.activation.Same (Exec.getStatic load₁ index) (Exec.getStatic load₂ index) := by
  refine frame_bind_same fun f =>
    (activation_onMachine_alike (resolveStatic_alike h f.pool index)).bind fun field =>
      .get_bind fun a ha => ?_
  split
  · exact Terms.Same.alike (activation_onStack (pushValue_fails _))
  next hnone =>
      -- a charter that is grounded knows a value of the field
      have hungrounded : ¬ C.grounded := by
        intro hg
        obtain ⟨value, hvalue⟩ := ha hg
        rw [hnone] at hvalue
        cases hvalue
      exact .fail (C.plain hungrounded nofun)

theorem putStatic_same (h : C.Loaders load₁ load₂) (index : UInt16) :
    C.activation.Same (Exec.putStatic load₁ index) (Exec.putStatic load₂ index) :=
  frame_bind_same fun f =>
    (activation_onMachine (resolveStatic_alike h f.pool index).same).bind fun field =>
      (activation_onStack (popValue_fails field.type)).bind fun value => .modify fun a hinv =>
        have hwork := C.work hinv.1 (Machine.setStatic_works a.machine field value)
          (Machine.Grows.of_eq (Machine.setStatic_objects a.machine field value))
          fun hg => (C.ground hinv.1 hg).setStatic field value
        activation_keeps _ hinv hwork.1 hwork.2 rfl rfl

variable (C) in
theorem getField_same (index : UInt16) :
    C.activation.Same (Exec.getField index) (Exec.getField index) :=
  frame_bind_same fun f =>
    (activation_liftMalformed (f.pool.pool.member_fails f.pool.owner index)).bind fun _ =>
      (activation_onStack (popObject_fails _)).bind fun address =>
        (activation_onMachine (instanceAt_same address)).bind fun i =>
          (activation_lift (i.cls.fieldPosition_fails _ _ _)).bind fun _ =>
            activation_onStack (pushValue_fails _)

variable (C) in
theorem putField_same (index : UInt16) :
    C.activation.Same (Exec.putField index) (Exec.putField index) := by
  refine frame_bind_same fun f =>
    (activation_liftMalformed (f.pool.pool.member_fails f.pool.owner index)).bind fun _ =>
      (activation_liftMalformed (Descriptor.fieldType_fails _)).bind fun t =>
        (activation_onStack (popValue_fails t)).bind fun value =>
          (activation_onStack (popObject_fails _)).bind fun address => Terms.Alike.bind
            (activation_onMachine_alike (instanceAt_alike (P := fun _ => True) address))
              fun i => ?_
  refine .bind (Q := fun _ a => a.machine.objects[address]? = some (.ofInstance i)) ?_
    fun position => ?_
  · exact .lift (fun g hg => C.ordinary (i.cls.fieldPosition_fails _ _ _ g hg))
      fun _ _ _ ha => ha.1
  · exact (activation_onMachine_alike (setObject_alike address _)).mono
      (fun _ _ ha => ⟨_, ha, rfl⟩) fun _ _ _ hq => hq

/-!
# Selection of methods
-/

theorem receiver_same (method : Method) :
    C.activation.Same (Exec.receiver method) (Exec.receiver method) := by
  refine (activation_onStack (peek_fails _)).bind fun slot => ?_
  cases slot with
  | reference target => exact .pure target
  | int value => exact activation_fail nofun

theorem receiverObject_same (instruction : String) (method : Method) :
    C.activation.Same (Exec.receiverObject instruction method)
      (Exec.receiverObject instruction method) := by
  refine (receiver_same method).bind fun target => ?_
  cases target with
  | some address => exact .pure address
  | none => exact activation_fail nofun

/-- A method that the instruction calls belongs to a registered class. -/
def Fits (C : Charter) (effect : Effect) (a : Activation) : Prop :=
  ∀ method, effect = .call method → C.Calls method a.machine

theorem fits_call {method : Method} {a : Activation} (h : C.Calls method a.machine) :
    C.Fits (.call method) a := by
  intro method' heq
  cases heq
  exact h

theorem invokeStatic_alike (h : C.Loaders load₁ load₂) (index : UInt16) :
    C.activation.Alike (fun _ => True) C.Fits (Exec.invokeStatic load₁ index)
      (Exec.invokeStatic load₂ index) :=
  frame_bind_alike fun f => Terms.Alike.bind
    ((activation_onMachine_alike (resolveMethod_alike h f.pool index)).mono (fun _ _ _ => trivial)
      fun _ _ _ hq => hq) fun _ =>
    .ite (fun _ => .fail_bind (C.ordinary nofun)) fun _ => .pure fun _ _ hcalls => fits_call hcalls

theorem bindSuper_calls {m : Machine} (hinv : C.inv m) {caller referenced : Class}
    {method bound : Method} (hcaller : C.Has caller m) (hmethod : C.Calls method m)
    (h : Exec.bindSuper caller referenced method = .ok bound) : C.Calls bound m := by
  unfold Exec.bindSuper at h
  split at h
  · split at h
    next => cases h
    next parent hparent =>
        split at h
        next => cases h
        next hbound =>
            cases h
            exact calls_method hinv
              (fun hg => (C.closed hinv hg).parent (hcaller hg) hparent) hbound
  · cases h
    exact hmethod

theorem invokeSpecial_alike (h : C.Loaders load₁ load₂) (index : UInt16) :
    C.activation.Alike (fun _ => True) C.Fits (Exec.invokeSpecial load₁ index)
      (Exec.invokeSpecial load₂ index) := by
  refine frame_bind_alike fun f => ?_
  have hcaller {a a' : Activation} (hrel : C.activation.rel a a')
      (ha : C.Has f.cls a.machine) : C.Has f.cls a'.machine := ha.keep hrel.1
  refine .bind (Q := fun _ a => C.Has f.cls a.machine) ?_ fun member => ?_
  · exact ((activation_liftMalformed (f.pool.pool.member_fails f.pool.owner index)).along
      hcaller).mono (fun _ _ ha => ha.2) fun _ _ _ hq => hq
  refine ((activation_onMachine_alike (resolveMethod_alike h f.pool index)).along hcaller).bind
    fun method => ?_
  refine ((activation_onMachine (loadClass_same h member.owner)).along
    (F := fun a => C.Calls method a.machine ∧ C.Has f.cls a.machine)
    fun hrel ha => ⟨ha.1.keep hrel.1, hcaller hrel ha.2⟩).bind fun referenced => ?_
  refine .bind (Q := fun bound a => C.Calls bound a.machine) ?_ fun bound => ?_
  · intro a hinv ha
    have hfails := Exec.bindSuper_fails f.cls referenced method
    cases hbound : Exec.bindSuper f.cls referenced method with
    | error g => exact ⟨rfl, hinv, C.activation.rel_refl a, C.ordinary (hfails g hbound)⟩
    | ok bound =>
        exact ⟨rfl, hinv, C.activation.rel_refl a, bindSuper_calls hinv.1 ha.2 ha.1 hbound⟩
  · refine .ite (fun _ => .fail_bind (C.ordinary nofun)) fun _ =>
      .ite (fun _ => .fail_bind (C.ordinary nofun)) fun _ => ?_
    exact ((receiverObject_same _ bound).along fun hrel ha => ha.keep hrel.1).bind fun _ =>
      .pure fun _ _ hcalls => fits_call hcalls

theorem select_alike {o : Object} (method : Method) :
    C.activation.Alike (fun a => C.Has o.receiverClass a.machine) C.Fits
      (do return .call (← o.receiverClass.select method))
      (do return .call (← o.receiverClass.select method)) := by
  intro a hinv ho
  refine ⟨rfl, ?_⟩
  have hfails := o.receiverClass.select_fails method
  cases hselect : o.receiverClass.select method with
  | error f => exact ⟨hinv, C.activation.rel_refl a, C.ordinary (hfails f hselect)⟩
  | ok selected =>
      refine ⟨hinv, C.activation.rel_refl a, fits_call ?_⟩
      unfold Class.select at hselect
      split at hselect
      next => cases hselect
      next hfound =>
          split at hselect
          next => cases hselect
          next =>
              cases hselect
              exact calls_method hinv.1 ho hfound

theorem object_has (address : Nat) :
    C.activation.Alike (fun _ => True) (fun o a => C.Has o.receiverClass a.machine)
      (liftM (Machine.object address)) (liftM (Machine.object address)) :=
  (activation_onMachine_alike (object_alike (P := fun _ => True) address)).mono
    (fun _ _ _ => trivial) fun _ _ hinv ho => has_object hinv.1 ho.1

theorem invokeVirtual_alike (h : C.Loaders load₁ load₂) (index : UInt16) :
    C.activation.Alike (fun _ => True) C.Fits (Exec.invokeVirtual load₁ index)
      (Exec.invokeVirtual load₂ index) := by
  refine frame_bind_alike fun f => Terms.Alike.bind
    ((activation_onMachine_alike (resolveMethod_alike h f.pool index)).mono (fun _ _ _ => trivial)
      fun _ _ _ hq => hq) fun method => ?_
  refine .ite (fun _ => .fail_bind (C.ordinary nofun)) fun _ => ?_
  refine ((receiver_same method).along fun hrel ha => Calls.keep hrel.1 ha).bind fun target => ?_
  cases target with
  | some address =>
      refine .ite (fun _ => .pure fun _ _ hcalls => fits_call hcalls) fun _ => ?_
      exact ((object_has address).mono (fun _ _ _ => trivial) fun _ _ _ hq => hq).bind fun o =>
        select_alike method
  | none =>
      refine Terms.Alike.bind (Terms.Same.alike (activation_onWorkspace (onNull_same method)))
        fun _ => .ite (fun _ => .pure fun _ _ _ => nofun) fun _ => .fail (C.ordinary nofun)

theorem invokeInterface_alike (h : C.Loaders load₁ load₂) (index : UInt16) :
    C.activation.Alike (fun _ => True) C.Fits (Exec.invokeInterface load₁ index)
      (Exec.invokeInterface load₂ index) := by
  have hcalled (f : Frame) :=
    (activation_liftMalformed (C := C) (f.pool.pool.member_fails f.pool.owner index))
  refine frame_bind_alike fun f => Terms.Alike.bind (Terms.Same.alike (hcalled f)) fun member =>
    Terms.Alike.bind (activation_onMachine (resolveMethod_alike h f.pool index).same) fun method =>
      Terms.Alike.bind (activation_onMachine (loadClass_same h member.owner)) fun interface =>
        Terms.Alike.bind (receiverObject_same _ method) fun address =>
          (object_has address).bind fun o => ?_
  dsimp only
  exact .ite (fun _ => .fail_bind (C.ordinary nofun)) fun _ => select_alike method

/-!
# One step
-/

theorem thenNext_alike {x y : Exec Unit} (h : C.activation.Same x y) :
    C.activation.Alike (fun _ => True) C.Fits (Exec.thenNext x) (Exec.thenNext y) :=
  Terms.Alike.bind h fun _ => .pure fun _ _ _ => nofun

theorem thenNext_onStack {x : StackM Unit} (h : Fails x) :
    C.activation.Alike (fun _ => True) C.Fits (Exec.thenNext (liftM x))
      (Exec.thenNext (liftM x)) :=
  thenNext_alike (activation_onStack h)

theorem execute_alike (h : C.Loaders load₁ load₂) (i : Instruction) :
    C.activation.Alike (fun _ => True) C.Fits (i.execute load₁) (i.execute load₂) := by
  -- work on the stack alone is the same to every charter; other instructions have their own lemmas
  cases i with
  | nop => exact .pure fun _ _ _ => nofun
  | push value => exact thenNext_onStack (pushValue_fails value)
  | pushConstant index =>
      exact thenNext_alike (frame_bind_same fun f =>
        (activation_onMachine (literal_same h f.pool index)).bind fun value =>
          activation_onStack (pushValue_fails value))
  | load kind index => exact thenNext_alike (loadLocal_same C kind index)
  | store kind index => exact thenNext_alike (storeLocal_same C kind index)
  | increment index delta => exact thenNext_alike (increment_same C index delta)
  | arrayLoad => exact thenNext_alike (arrayLoad_same C)
  | arrayStore kind => exact thenNext_alike (arrayStore_same C kind)
  | shuffle move => exact thenNext_onStack move.apply_fails
  | intOp op => exact thenNext_onStack op.applyInt_fails
  | longOp op => exact thenNext_onStack op.applyLong_fails
  | intShift op => exact thenNext_onStack op.applyInt_fails
  | longShift op => exact thenNext_onStack op.applyLong_fails
  | floatOp op => exact thenNext_onStack op.applyFloat_fails
  | doubleOp op => exact thenNext_onStack op.applyDouble_fails
  | negate number => exact thenNext_onStack number.negate_fails
  | convert conversion => exact thenNext_onStack conversion.apply_fails
  | compareLong => exact thenNext_onStack compareLongs_fails
  | compareFloat unordered => exact thenNext_onStack (compareFloats_fails unordered)
  | compareDouble unordered => exact thenNext_onStack (compareDoubles_fails unordered)
  | branchZero condition offset => exact thenNext_alike (branchZero_same C condition offset)
  | branchInt condition offset => exact thenNext_alike (branchInt_same C condition offset)
  | branchSame same offset => exact thenNext_alike (branchSame_same C same offset)
  | branchNull null offset => exact thenNext_alike (branchNull_same C null offset)
  | jump offset => exact thenNext_alike (jump_same offset)
  | tableSwitch default low high offsets =>
      exact thenNext_alike (tableSwitch_same C default low high offsets)
  | lookupSwitch default table => exact thenNext_alike (lookupSwitch_same C default table)
  | returnValue kind =>
      exact Terms.Alike.bind (activation_onStack (popKind_fails kind)) fun _ =>
        .pure fun _ _ _ => nofun
  | returnVoid => exact .pure fun _ _ _ => nofun
  | getStatic index => exact thenNext_alike (getStatic_same h index)
  | putStatic index => exact thenNext_alike (putStatic_same h index)
  | getField index => exact thenNext_alike (getField_same C index)
  | putField index => exact thenNext_alike (putField_same C index)
  | invokeVirtual index => exact invokeVirtual_alike h index
  | invokeSpecial index => exact invokeSpecial_alike h index
  | invokeStatic index => exact invokeStatic_alike h index
  | invokeInterface index => exact invokeInterface_alike h index
  | new index => exact thenNext_alike (newObject_same h index)
  | newArray element => exact thenNext_alike (newArray_exec_same h element)
  | newReferenceArray index => exact thenNext_alike (newReferenceArray_same h index)
  | newMultiArray index dimensions =>
      exact thenNext_alike (newMultiArray_exec_same h index dimensions)
  | arrayLength => exact thenNext_alike (arrayLength_same C)
  | throw =>
      exact Terms.Alike.bind (activation_onStack (popObject_fails _)) fun _ =>
        .pure fun _ _ _ => nofun
  | checkCast index => exact thenNext_alike (checkCast_same h index)
  | instanceOf index => exact thenNext_alike (instanceOf_same h index)

variable (C) in
theorem fetch_same : C.activation.Same Exec.fetch Exec.fetch := by
  intro a hinv _
  refine ⟨rfl, ?_⟩
  have hkeeps := activation_keeps { a with frame := { a.frame with current := a.frame.pc } }
    hinv hinv.1 (C.rel_refl _) rfl rfl
  unfold Exec.fetch
  rw [get_bind]
  cases hcode : a.frame.method.code[a.frame.pc]? with
  | some opcode => exact ⟨hkeeps.1, hkeeps.2, trivial⟩
  | none => exact ⟨hkeeps.1, hkeeps.2, C.ordinary (DecodeError.fault_ordinary _ _)⟩

variable (C) in
theorem note_same (tracing : Bool) (opcode : UInt8) :
    C.activation.Same (Exec.note tracing opcode) (Exec.note tracing opcode) := by
  have hrecord {a : Activation} (hinv : C.activation.inv a) (text : String) :
      C.inv (a.machine.record .trace text) ∧ C.rel a.machine (a.machine.record .trace text) := by
    have hwork : Machine.Works a.machine (a.machine.record .trace text) := ⟨rfl, rfl, rfl, rfl⟩
    exact C.work hinv.1 hwork (Machine.Grows.of_eq rfl) fun hg =>
      (C.ground hinv.1 hg).congr rfl rfl rfl rfl
  exact .ite (fun _ => frame_bind_same fun f => .modify fun a hinv =>
    activation_keeps _ hinv (hrecord hinv _).1 (hrecord hinv _).2 rfl rfl) fun _ => .pure ()

variable (C) in
theorem decode_same (opcode : UInt8) :
    C.activation.Same (Exec.decode opcode) (Exec.decode opcode) := by
  intro a hinv _
  refine ⟨rfl, ?_⟩
  unfold Exec.decode
  rw [get_bind]
  cases Instruction.decode a.frame.method.code opcode (a.frame.current + 1) with
  | ok found =>
      have hkeeps := activation_keeps { a with frame := { a.frame with pc := found.2 } }
        hinv hinv.1 (C.rel_refl _) rfl rfl
      exact ⟨hkeeps.1, hkeeps.2, trivial⟩
  | error e =>
      exact ⟨hinv, ⟨C.rel_refl _, rfl, rfl⟩, C.ordinary (DecodeError.fault_ordinary _ e)⟩

theorem step_alike (h : C.Loaders load₁ load₂) (tracing : Bool) :
    C.activation.Alike (fun _ => True) C.Fits (Exec.step load₁ tracing)
      (Exec.step load₂ tracing) :=
  Terms.Alike.bind (fetch_same C) fun opcode => Terms.Alike.bind (note_same C tracing opcode)
    fun _ => Terms.Alike.bind (decode_same C opcode) fun i => execute_alike h i

end Charter
end Bytecode
