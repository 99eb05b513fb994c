import Bytecode.Proofs.Dialogue.Native

/-!
# Instructions in dialogue

An instruction keeps to every conduct, and never changes which constant table its frame refers to.
What it stores in a field is of the kind that the field holds.
-/

namespace Bytecode

variable {α β : Type}

open OperandStack Scene Contract

namespace OperandStack

theorem map_eq_ok {x : StackM α} {f : α → β} {b : β} {s s' : OperandStack}
    (h : (f <$> x) s = .ok b s') : ∃ a, b = f a := by
  rw [map_eq_pure_bind] at h
  obtain ⟨a, s₁, -, hb⟩ := bind_eq_ok h
  cases hb
  exact ⟨a, rfl⟩

theorem kind_of_popKind {kind : Kind} {value : Value} {s s' : OperandStack}
    (h : popKind kind s = .ok value s') : value.kind = kind := by
  cases kind <;> (obtain ⟨a, rfl⟩ := map_eq_ok h; rfl)

theorem kind_of_popValue {type : ValueType} {value : Value} {s s' : OperandStack}
    (h : popValue type s = .ok value s') : type.kind? = some value.kind := by
  unfold popValue at h
  cases hkind : type.kind? with
  | none =>
      rw [hkind] at h
      cases h
  | some kind =>
      rw [hkind] at h
      rw [kind_of_popKind h]

end OperandStack

namespace Conduct

variable (K : Conduct)

def activation : Scene K Activation where
  inv a := K.inv a.machine ∧ K.knows a.frame.pool a.machine
  rel a a' := K.rel a.machine a'.machine ∧ a'.frame.pool = a.frame.pool
  err := K.err
  rel_refl a := ⟨K.rel_refl a.machine, rfl⟩
  rel_trans h h' := ⟨K.rel_trans h.1 h'.1, h'.2.trans h.2⟩
  machine := Activation.machine
  machine_inv h := h.1
  machine_rel h := h.1

variable {K}

theorem activation_keeps {a : Activation} (a' : Activation) (h : K.activation.inv a)
    (hinv : K.inv a'.machine) (hrel : K.rel a.machine a'.machine)
    (hpool : a'.frame.pool = a.frame.pool) :
    K.activation.inv a' ∧ K.activation.rel a a' := by
  refine ⟨⟨hinv, ?_⟩, hrel, hpool⟩
  rw [hpool]
  exact K.knows_later hrel h.2

theorem activation_onWorkspace_talks {P : Machine → Prop} {Q : α → Machine → Prop}
    {x : Oracle → NativeM α}
    (h : K.workspace.Talks (fun w => P w.machine) (fun b w => Q b w.machine) x) :
    K.activation.Talks (fun a => P a.machine) (fun b a => Q b a.machine)
      fun o => liftM (x o) := by
  refine Talks.onPart Activation.onWorkspace (fun a => ⟨a.frame.stack, a.machine⟩)
    (fun a w => ⟨{ a.frame with stack := w.stack }, w.machine⟩) ?_ h ?_ ?_ (fun _ _ _ hq => hq)
    (fun _ => rfl) (fun _ _ => rfl) fun _ hf => hf
  · intro z a
    cases hz : z ⟨a.frame.stack, a.machine⟩ <;>
      simp only [Activation.onWorkspace, Terms.mapState, hz]
  · intro a hinv hP
    exact ⟨hinv.1, hP⟩
  · intro a w hinv hinv' hrel
    exact activation_keeps _ hinv hinv' hrel rfl

theorem activation_onWorkspace {x : Oracle → NativeM α} (h : K.workspace.Speaks x) :
    K.activation.Speaks fun o => liftM (x o) :=
  activation_onWorkspace_talks (P := fun _ => True) (Q := fun _ _ => True) h

theorem activation_onMachine_talks {P : Machine → Prop} {Q : α → Machine → Prop}
    {x : Oracle → MachineM α} (h : K.scene.Talks P Q x) :
    K.activation.Talks (fun a => P a.machine) (fun b a => Q b a.machine)
      fun o => liftM (x o) :=
  activation_onWorkspace_talks (workspace_onMachine_talks K h)

theorem activation_onMachine {x : Oracle → MachineM α} (h : K.scene.Speaks x) :
    K.activation.Speaks fun o => liftM (x o) :=
  activation_onMachine_talks h

/-- Work on the stack; what it returns can be told from the stack. -/
theorem activation_onStack_talks {x : StackM α} (h : Fails x) {P : Activation → Prop} :
    K.activation.Talks P (fun b _ => ∃ s s', x s = .ok b s') fun _ => liftM x := by
  apply Talks.of_alike (y := liftM x)
  intro a hinv _
  refine ⟨rfl, ?_⟩
  show K.activation.Ends _ a (Activation.onStack x a)
  cases hx : x a.frame.stack with
  | ok b stack =>
      simp only [Activation.onStack, hx]
      exact ⟨hinv, ⟨K.rel_refl _, rfl⟩, _, _, hx⟩
  | error f stack =>
      simp only [Activation.onStack, hx]
      exact ⟨hinv, ⟨K.rel_refl _, rfl⟩, K.plain (h _ _ _ hx).plain⟩

theorem activation_onStack {x : StackM α} (h : Fails x) : K.activation.Speaks fun _ => liftM x :=
  (activation_onStack_talks h).speaks

theorem activation_lift {x : Except Fault α} (h : FailsWith Fault.Ordinary x) :
    K.activation.Speaks fun _ => liftM x :=
  (Talks.lift h K.plain).speaks

theorem activation_liftMalformed {x : Except Malformed α} (h : FailsWith Malformed.Plain x) :
    K.activation.Speaks fun _ => liftM x :=
  (Talks.liftMalformed h K.plain).speaks

theorem activation_fail {f : Fault} (h : f.Plain) :
    K.activation.Speaks fun _ => (fail f : Exec α) :=
  .fail (K.plain h)

theorem frame_bind_talks {k : Frame → Oracle → Exec α}
    (h : ∀ f, K.activation.Talks (fun a => K.knows f.pool a.machine) (fun _ _ => True) (k f)) :
    K.activation.Speaks fun o => Exec.frame >>= fun f => k f o := by
  intro a hinv _
  exact h a.frame a hinv hinv.2

theorem frame_bind_speaks {k : Frame → Oracle → Exec α} (h : ∀ f, K.activation.Speaks (k f)) :
    K.activation.Speaks fun o => Exec.frame >>= fun f => k f o :=
  frame_bind_talks fun f => (h f).talks

theorem setLocals_speaks (locals : Locals) :
    K.activation.Speaks fun _ => Exec.setLocals locals := by
  apply Speaks.of_same
  apply Terms.Same.modify
  intro a hinv
  exact ⟨hinv, K.rel_refl _, rfl⟩

theorem jump_speaks (offset : Int32) : K.activation.Speaks fun _ => Exec.jump offset := by
  apply Speaks.of_same (y := Exec.jump offset)
  intro a hinv _
  refine ⟨rfl, ?_⟩
  rw [Exec.jump_eq]
  cases hf : a.frame.jump offset with
  | ok f =>
      rcases activation_keeps { a with frame := f } hinv hinv.1 (K.rel_refl _)
        (Frame.jump_kept hf).1 with ⟨hinv', hrel'⟩
      exact ⟨hinv', hrel', trivial⟩
  | error f => exact ⟨hinv, ⟨K.rel_refl _, rfl⟩, K.plain (a.frame.jump_fails offset f hf).plain⟩

/-!
# Variables, arrays and branches
-/

section

variable (K)

theorem loadLocal_speaks (kind : Kind) (index : Nat) :
    K.activation.Speaks fun _ => Exec.loadLocal kind index :=
  frame_bind_speaks fun f => (activation_lift (f.locals.read_fails kind index)).bind fun value =>
    activation_onStack (pushValue_fails value)

theorem storeLocal_speaks (kind : Kind) (index : Nat) :
    K.activation.Speaks fun _ => Exec.storeLocal kind index :=
  (activation_onStack (popKind_fails kind)).bind fun value => frame_bind_speaks fun f =>
    (activation_lift (f.locals.write_fails index value)).bind fun _ => setLocals_speaks _

theorem increment_speaks (index : Nat) (delta : Int32) :
    K.activation.Speaks fun _ => Exec.increment index delta :=
  frame_bind_speaks fun f => (activation_lift (f.locals.getInt_fails index)).bind fun _ =>
    (activation_lift (f.locals.setInt_fails index _)).bind fun _ => setLocals_speaks _

theorem arrayLoad_speaks : K.activation.Speaks fun _ => Exec.arrayLoad :=
  (activation_onStack popInt_fails).bind fun index =>
    (activation_onStack (popObject_fails _)).bind fun address =>
      (activation_onMachine (loadElement_speaks K address index)).bind fun value =>
        activation_onStack (pushValue_fails value)

theorem arrayStore_speaks (kind : Kind) : K.activation.Speaks fun _ => Exec.arrayStore kind :=
  (activation_onStack (popKind_fails kind)).bind fun value =>
    (activation_onStack popInt_fails).bind fun index =>
      (activation_onStack (popObject_fails _)).bind fun address =>
        activation_onMachine (storeElement_speaks K address index value)

theorem arrayLength_speaks : K.activation.Speaks fun _ => Exec.arrayLength :=
  (activation_onStack (popObject_fails _)).bind fun address =>
    (activation_onMachine (arrayAt_speaks K address)).bind fun _ =>
      activation_onStack (push_fails _)

theorem branch_speaks (c : Prop) [Decidable c] (offset : Int32) :
    K.activation.Speaks fun _ => if c then Exec.jump offset else pure () :=
  .ite (fun _ => jump_speaks offset) fun _ => .pure ()

theorem branchZero_speaks (condition : Condition) (offset : Int32) :
    K.activation.Speaks fun _ => Exec.branchZero condition offset :=
  (activation_onStack popInt_fails).bind fun _ => branch_speaks K _ offset

theorem branchInt_speaks (condition : Condition) (offset : Int32) :
    K.activation.Speaks fun _ => Exec.branchInt condition offset :=
  (activation_onStack popInt_fails).bind fun _ =>
    (activation_onStack popInt_fails).bind fun _ => branch_speaks K _ offset

theorem branchSame_speaks (same : Bool) (offset : Int32) :
    K.activation.Speaks fun _ => Exec.branchSame same offset :=
  (activation_onStack popReference_fails).bind fun _ =>
    (activation_onStack popReference_fails).bind fun _ => branch_speaks K _ offset

theorem branchNull_speaks (null : Bool) (offset : Int32) :
    K.activation.Speaks fun _ => Exec.branchNull null offset :=
  (activation_onStack popReference_fails).bind fun _ => branch_speaks K _ offset

theorem tableSwitch_speaks (default low high : Int32) (offsets : List Int32) :
    K.activation.Speaks fun _ => Exec.tableSwitch default low high offsets :=
  (activation_onStack popInt_fails).bind fun _ => jump_speaks _

theorem lookupSwitch_speaks (default : Int32) (table : Option (List (Int32 × Int32))) :
    K.activation.Speaks fun _ => Exec.lookupSwitch default table := by
  refine (activation_onStack popInt_fails).bind fun key => ?_
  cases table with
  | some table => exact jump_speaks _
  | none => exact frame_bind_speaks fun f => activation_fail nofun

/-!
# Objects and fields
-/

theorem newObject_speaks (index : UInt16) :
    K.activation.Speaks fun o => Exec.newObject o.load index := by
  refine frame_bind_talks fun f =>
    (activation_onMachine_talks (resolveClass_talks K f.pool index)).bind fun c =>
      .assume fun _ _ hc => Speaks.talks ?_
  refine .ite (fun _ => .fail_bind (K.plain nofun)) fun _ => ?_
  have hmade : K.scene.Speaks fun _ => Machine.alloc (.ofInstance (.ofClass c)) :=
    alloc_speaks K fun ht => Instance.ofClass_typed (hc ht)
  exact (activation_onMachine hmade).bind fun _ => activation_onStack (push_fails _)

theorem pushObject_speaks {x : Oracle → MachineM Nat} (h : K.scene.Speaks x) :
    K.activation.Speaks fun o => (do pushReference (some (← x o)) : Exec Unit) :=
  (activation_onMachine h).bind fun _ => activation_onStack (push_fails _)

theorem newArray_exec_speaks (element : Element) :
    K.activation.Speaks fun o => Exec.newArray o.load element :=
  (activation_onStack popInt_fails).bind fun _ => pushObject_speaks K (newArray_speaks K _ _)

theorem newReferenceArray_speaks (index : UInt16) :
    K.activation.Speaks fun o => Exec.newReferenceArray o.load index := by
  refine frame_bind_speaks fun f =>
    (activation_liftMalformed (f.pool.pool.className_fails index)).bind fun component => ?_
  have hrest (name : String) :
      K.activation.Speaks fun o =>
        (do let length ← popInt
            pushReference (some (← Machine.newArray o.load name length)) : Exec Unit) :=
    (activation_onStack popInt_fails).bind fun _ => pushObject_speaks K (newArray_speaks K name _)
  refine .ite (fun _ => hrest _) fun _ => ?_
  exact (activation_onMachine (loadClass_speaks K component)).bind fun _ => hrest _

theorem newMultiArray_exec_speaks (index : UInt16) (dimensions : Nat) :
    K.activation.Speaks fun o => Exec.newMultiArray o.load index dimensions :=
  frame_bind_speaks fun f =>
    (activation_liftMalformed (f.pool.pool.className_fails index)).bind fun _ =>
      .ite (fun _ => .fail_bind (K.plain nofun)) fun _ =>
        (activation_onStack (Exec.popLengths_fails dimensions)).bind fun _ =>
          pushObject_speaks K (newMultiArray_speaks K _ _)

theorem checkCast_speaks (index : UInt16) :
    K.activation.Speaks fun o => Exec.checkCast o.load index := by
  refine frame_bind_speaks fun f =>
    (activation_liftMalformed (f.pool.pool.className_fails index)).bind fun target =>
      (activation_onStack popReference_fails).bind fun reference => ?_
  cases reference with
  | none => exact activation_onStack (push_fails _)
  | some address =>
      refine (activation_onMachine (isInstanceOf_speaks K address target)).bind fun fits =>
        .ite (fun _ => ?_) fun _ => activation_onStack (push_fails _)
      exact (activation_onMachine (object_speaks K address)).bind fun o =>
        .fail_bind (K.plain nofun)

theorem instanceOf_speaks (index : UInt16) :
    K.activation.Speaks fun o => Exec.instanceOf o.load index := by
  refine frame_bind_speaks fun f =>
    (activation_liftMalformed (f.pool.pool.className_fails index)).bind fun target =>
      (activation_onStack popReference_fails).bind fun reference => ?_
  cases reference with
  | none => exact activation_onStack (push_fails _)
  | some address =>
      exact (activation_onMachine (isInstanceOf_speaks K address target)).bind fun _ =>
        activation_onStack (push_fails _)

theorem getStatic_speaks (index : UInt16) :
    K.activation.Speaks fun o => Exec.getStatic o.load index := by
  refine frame_bind_speaks fun f =>
    (activation_onMachine (resolveStatic_talks K f.pool index).speaks).bind fun field =>
      .get_bind fun a => ?_
  cases a.machine.static? field with
  | some value => exact activation_onStack (pushValue_fails _)
  | none => exact activation_fail nofun

theorem putStatic_speaks (index : UInt16) :
    K.activation.Speaks fun o => Exec.putStatic o.load index := by
  refine frame_bind_speaks fun f =>
    Talks.bind (activation_onMachine_talks (resolveStatic_talks K f.pool index)) fun field =>
      .assume fun _ _ hfield => ?_
  refine Talks.bind (activation_onStack_talks (popValue_fails field.type)) fun value =>
    .assume fun _ _ hvalue => ?_
  obtain ⟨s, s', hpop⟩ := hvalue
  apply Talks.of_alike
  apply Terms.Alike.modify
  intro a hinv _
  have hworks := Machine.setStatic_works a.machine field value
  have hspares := Machine.Spares.setStatic a.machine field value
  rcases K.work hinv.1 hworks hspares.upholds fun ht => (K.sound hinv.1 ht).setStatic
    (K.names hinv.1 ht) ((hfield ht).1.holds (kind_of_popValue hpop)) with ⟨hinv', hrel⟩
  rcases activation_keeps { a with machine := a.machine.setStatic field value } hinv hinv' hrel rfl
    with ⟨hkept, hkept'⟩
  exact ⟨hkept, hkept', trivial⟩

theorem getField_speaks (index : UInt16) : K.activation.Speaks fun _ => Exec.getField index :=
  frame_bind_speaks fun f =>
    (activation_liftMalformed (f.pool.pool.member_fails f.pool.owner index)).bind fun _ =>
      (activation_onStack (popObject_fails _)).bind fun address =>
        (activation_onMachine (instanceAt_speaks K address)).bind fun i =>
          (activation_lift (i.cls.fieldPosition_fails _ _ _)).bind fun _ =>
            activation_onStack (pushValue_fails _)

theorem putField_speaks (index : UInt16) : K.activation.Speaks fun _ => Exec.putField index := by
  refine frame_bind_speaks fun f =>
    (activation_liftMalformed (f.pool.pool.member_fails f.pool.owner index)).bind fun member => ?_
  refine Talks.bind (.liftMalformed (Descriptor.fieldType_fails _) K.plain) fun type =>
    .assume fun _ _ htype => ?_
  refine Talks.bind (activation_onStack_talks (popValue_fails type)) fun value =>
    .assume fun _ _ hvalue => ?_
  obtain ⟨s, s', hpop⟩ := hvalue
  refine Talks.bind (activation_onStack_talks (popObject_fails _)) fun address => ?_
  refine Talks.bind (activation_onMachine_talks (P := fun _ => True)
    (instanceAt_talks K address) |>.mono (fun _ _ _ => trivial) fun _ _ _ h => h) fun i => ?_
  refine Talks.bind (.lift (i.cls.fieldPosition_fails _ _ _) K.plain) fun position => ?_
  refine (activation_onMachine_talks (setObject_talks K address _)).mono ?_ fun _ _ _ h => h
  rintro a _ ⟨hposition, hobject, -⟩
  refine ⟨_, hobject, rfl, fun _ hsound => ⟨?_, rfl⟩⟩
  exact (typed_of_getElem? hsound hobject).putAt hposition htype.1 (kind_of_popValue hpop)

/-!
# Selection of methods
-/

theorem receiver_speaks (method : Method) :
    K.activation.Speaks fun _ => Exec.receiver method := by
  refine (activation_onStack (peek_fails _)).bind fun slot => ?_
  cases slot with
  | reference target => exact .pure target
  | int value => exact activation_fail nofun

theorem receiverObject_speaks (instruction : String) (method : Method) :
    K.activation.Speaks fun _ => Exec.receiverObject instruction method := by
  refine (receiver_speaks K method).bind fun target => ?_
  cases target with
  | some address => exact .pure address
  | none => exact activation_fail nofun

theorem invokeStatic_speaks (index : UInt16) :
    K.activation.Speaks fun o => Exec.invokeStatic o.load index :=
  frame_bind_speaks fun f =>
    (activation_onMachine (resolveMethod_speaks K f.pool index)).bind fun _ =>
      .ite (fun _ => .fail_bind (K.plain nofun)) fun _ => .pure _

theorem invokeSpecial_speaks (index : UInt16) :
    K.activation.Speaks fun o => Exec.invokeSpecial o.load index :=
  frame_bind_speaks fun f =>
    (activation_liftMalformed (f.pool.pool.member_fails f.pool.owner index)).bind fun member =>
      (activation_onMachine (resolveMethod_speaks K f.pool index)).bind fun method =>
        (activation_onMachine (loadClass_speaks K member.owner)).bind fun referenced =>
          (activation_lift (Exec.bindSuper_fails f.cls referenced method)).bind fun method =>
            .ite (fun _ => .fail_bind (K.plain nofun)) fun _ =>
              .ite (fun _ => .fail_bind (K.plain nofun)) fun _ =>
                (receiverObject_speaks K _ method).bind fun _ => .pure _

theorem invokeVirtual_speaks (index : UInt16) :
    K.activation.Speaks fun o => Exec.invokeVirtual o.load index := by
  refine frame_bind_speaks fun f =>
    (activation_onMachine (resolveMethod_speaks K f.pool index)).bind fun method =>
      .ite (fun _ => .fail_bind (K.plain nofun)) fun _ =>
        (receiver_speaks K method).bind fun target => ?_
  cases target with
  | some address =>
      refine .ite (fun _ => .pure _) fun _ =>
        (activation_onMachine (object_speaks K address)).bind fun o => ?_
      exact (activation_lift (o.receiverClass.select_fails method)).bind fun _ => .pure _
  | none =>
      exact (activation_onWorkspace (onNull_speaks K method)).bind fun _ =>
        .ite (fun _ => .pure _) fun _ => activation_fail nofun

theorem invokeInterface_speaks (index : UInt16) :
    K.activation.Speaks fun o => Exec.invokeInterface o.load index :=
  frame_bind_speaks fun f =>
    (activation_liftMalformed (f.pool.pool.member_fails f.pool.owner index)).bind fun member =>
      (activation_onMachine (resolveMethod_speaks K f.pool index)).bind fun method =>
        (activation_onMachine (loadClass_speaks K member.owner)).bind fun _ =>
          (receiverObject_speaks K _ method).bind fun address =>
            (activation_onMachine (object_speaks K address)).bind fun o =>
              .ite (fun _ => .fail_bind (K.plain nofun)) fun _ =>
                (activation_lift (o.receiverClass.select_fails method)).bind fun _ => .pure _

/-!
# One step
-/

variable {K} in
theorem thenNext_speaks {x : Oracle → Exec Unit} (h : K.activation.Speaks x) :
    K.activation.Speaks fun o => Exec.thenNext (x o) :=
  h.bind fun _ => .pure _

variable {K} in
theorem thenNext_onStack {x : StackM Unit} (h : Fails x) :
    K.activation.Speaks fun _ => Exec.thenNext (liftM x) :=
  thenNext_speaks (activation_onStack h)

theorem execute_speaks (i : Instruction) :
    K.activation.Speaks fun o => i.execute o.load := by
  cases i with
  | nop => exact .pure _
  | push value => exact thenNext_onStack (pushValue_fails value)
  | pushConstant index =>
      exact thenNext_speaks (frame_bind_speaks fun f =>
        (activation_onMachine (literal_speaks K f.pool index)).bind fun value =>
          activation_onStack (pushValue_fails value))
  | load kind index => exact thenNext_speaks (loadLocal_speaks K kind index)
  | store kind index => exact thenNext_speaks (storeLocal_speaks K kind index)
  | increment index delta => exact thenNext_speaks (increment_speaks K index delta)
  | arrayLoad => exact thenNext_speaks (arrayLoad_speaks K)
  | arrayStore kind => exact thenNext_speaks (arrayStore_speaks K kind)
  | shuffle move => exact thenNext_onStack move.apply_fails
  | intOp op => exact thenNext_onStack op.applyInt_fails
  | longOp op => exact thenNext_onStack op.applyLong_fails
  | intShift op => exact thenNext_onStack op.applyInt_fails
  | longShift op => exact thenNext_onStack op.applyLong_fails
  | floatOp op => exact thenNext_onStack op.applyFloat_fails
  | doubleOp op => exact thenNext_onStack op.applyDouble_fails
  | negate number => exact thenNext_onStack number.negate_fails
  | convert conversion => exact thenNext_onStack conversion.apply_fails
  | compareLong => exact thenNext_onStack compareLongs_fails
  | compareFloat unordered => exact thenNext_onStack (compareFloats_fails unordered)
  | compareDouble unordered => exact thenNext_onStack (compareDoubles_fails unordered)
  | branchZero condition offset => exact thenNext_speaks (branchZero_speaks K condition offset)
  | branchInt condition offset => exact thenNext_speaks (branchInt_speaks K condition offset)
  | branchSame same offset => exact thenNext_speaks (branchSame_speaks K same offset)
  | branchNull null offset => exact thenNext_speaks (branchNull_speaks K null offset)
  | jump offset => exact thenNext_speaks (jump_speaks offset)
  | tableSwitch default low high offsets =>
      exact thenNext_speaks (tableSwitch_speaks K default low high offsets)
  | lookupSwitch default table => exact thenNext_speaks (lookupSwitch_speaks K default table)
  | returnValue kind => exact (activation_onStack (popKind_fails kind)).bind fun _ => .pure _
  | returnVoid => exact .pure _
  | getStatic index => exact thenNext_speaks (getStatic_speaks K index)
  | putStatic index => exact thenNext_speaks (putStatic_speaks K index)
  | getField index => exact thenNext_speaks (getField_speaks K index)
  | putField index => exact thenNext_speaks (putField_speaks K index)
  | invokeVirtual index => exact invokeVirtual_speaks K index
  | invokeSpecial index => exact invokeSpecial_speaks K index
  | invokeStatic index => exact invokeStatic_speaks K index
  | invokeInterface index => exact invokeInterface_speaks K index
  | new index => exact thenNext_speaks (newObject_speaks K index)
  | newArray element => exact thenNext_speaks (newArray_exec_speaks K element)
  | newReferenceArray index => exact thenNext_speaks (newReferenceArray_speaks K index)
  | newMultiArray index dimensions =>
      exact thenNext_speaks (newMultiArray_exec_speaks K index dimensions)
  | arrayLength => exact thenNext_speaks (arrayLength_speaks K)
  | throw => exact (activation_onStack (popObject_fails _)).bind fun _ => .pure _
  | checkCast index => exact thenNext_speaks (checkCast_speaks K index)
  | instanceOf index => exact thenNext_speaks (instanceOf_speaks K index)

theorem fetch_speaks : K.activation.Speaks fun _ => Exec.fetch := by
  apply Speaks.of_same (y := Exec.fetch)
  intro a hinv _
  refine ⟨rfl, ?_⟩
  have hkeeps := activation_keeps { a with frame := { a.frame with current := a.frame.pc } }
    hinv hinv.1 (K.rel_refl _) rfl
  unfold Exec.fetch
  rw [get_bind]
  cases hcode : a.frame.method.code[a.frame.pc]? with
  | some opcode => exact ⟨hkeeps.1, hkeeps.2, trivial⟩
  | none => exact ⟨hkeeps.1, hkeeps.2, K.plain (DecodeError.fault_ordinary _ _).plain⟩

theorem note_speaks (tracing : Bool) (opcode : UInt8) :
    K.activation.Speaks fun _ => Exec.note tracing opcode := by
  have hrecord {a : Activation} (hinv : K.activation.inv a) (text : String) :
      K.inv (a.machine.record .trace text) ∧ K.rel a.machine (a.machine.record .trace text) :=
    work_of_eq hinv.1 ⟨rfl, rfl, rfl, rfl⟩ rfl rfl rfl rfl
  exact .ite (fun _ => frame_bind_speaks fun f => .of_same (.modify fun a hinv =>
    activation_keeps _ hinv (hrecord hinv _).1 (hrecord hinv _).2 rfl)) fun _ => .pure ()

theorem decode_speaks (opcode : UInt8) : K.activation.Speaks fun _ => Exec.decode opcode := by
  apply Speaks.of_same (y := Exec.decode opcode)
  intro a hinv _
  refine ⟨rfl, ?_⟩
  unfold Exec.decode
  rw [get_bind]
  cases Instruction.decode a.frame.method.code opcode (a.frame.current + 1) with
  | ok found =>
      have hkeeps := activation_keeps { a with frame := { a.frame with pc := found.2 } }
        hinv hinv.1 (K.rel_refl _) rfl
      exact ⟨hkeeps.1, hkeeps.2, trivial⟩
  | error e => exact ⟨hinv, ⟨K.rel_refl _, rfl⟩, K.plain (DecodeError.fault_ordinary _ e).plain⟩

theorem step_speaks (tracing : Bool) :
    K.activation.Speaks fun o => Exec.step o.load tracing :=
  (fetch_speaks K).bind fun opcode => (note_speaks K tracing opcode).bind fun _ =>
    (decode_speaks K opcode).bind fun i => execute_speaks K i

end

end Conduct
end Bytecode
