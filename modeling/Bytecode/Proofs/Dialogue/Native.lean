import Bytecode.Proofs.Dialogue.Machine

/-!
# Native methods in dialogue

A native method is polite when it keeps to every conduct under which ordinary work is free.  All
built-in methods keep to every conduct whatever.
-/

namespace Bytecode

variable {α : Type}

open OperandStack Scene

namespace Conduct

def workspace (K : Conduct) : Scene K Workspace where
  inv w := K.inv w.machine
  rel w w' := K.rel w.machine w'.machine
  err := K.err
  rel_refl w := K.rel_refl w.machine
  rel_trans := K.rel_trans
  machine := Workspace.machine
  machine_inv := id
  machine_rel := id

variable (K : Conduct)

theorem workspace_onStack {x : StackM α} (h : Fails x) :
    K.workspace.Speaks fun _ => liftM x := by
  apply Speaks.of_same (y := liftM x)
  intro w hinv _
  refine ⟨rfl, ?_⟩
  show K.workspace.Ends _ w (Workspace.onStack x w)
  cases hx : x w.stack with
  | ok a stack =>
      simp only [Workspace.onStack, hx]
      exact ⟨hinv, K.rel_refl _, trivial⟩
  | error f stack =>
      simp only [Workspace.onStack, hx]
      exact ⟨hinv, K.rel_refl _, K.plain (h _ _ _ hx).plain⟩

theorem workspace_onMachine_talks {P : Machine → Prop} {Q : α → Machine → Prop}
    {x : Oracle → MachineM α} (h : K.scene.Talks P Q x) :
    K.workspace.Talks (fun w => P w.machine) (fun a w => Q a w.machine)
      fun o => liftM (x o) := by
  refine Talks.onPart Workspace.onMachine Workspace.machine (fun w m => ⟨w.stack, m⟩)
    ?_ h ?_ ?_ (fun _ _ _ hq => hq) (fun _ => rfl) (fun _ _ => rfl) fun _ hf => hf
  · intro z w
    cases hz : z w.machine <;> simp only [Workspace.onMachine, Terms.mapState, hz]
  · intro w hinv hP
    exact ⟨hinv, hP⟩
  · intro w m _ hinv hrel
    exact ⟨hinv, hrel⟩

theorem workspace_onMachine {x : Oracle → MachineM α} (h : K.scene.Speaks x) :
    K.workspace.Speaks fun o => liftM (x o) :=
  workspace_onMachine_talks K h

theorem workspace_lift {x : Except Fault α} (h : FailsWith Fault.Ordinary x) :
    K.workspace.Speaks fun _ => liftM x :=
  (Talks.lift h K.plain).speaks

theorem workspace_fail {f : Fault} (h : f.Plain) :
    K.workspace.Speaks fun _ => (fail f : NativeM α) :=
  .fail (K.plain h)

end Conduct

open Conduct

/-- All ordinary work keeps to the conduct, whatever becomes of the objects of types. -/
structure Conduct.Free (K : Conduct) : Prop where
  prompt : K.prompt
  work : ∀ {m m'}, K.inv m → Machine.Works m m' → (K.typed → m'.Sound ∧ Machine.Grows m m') →
    K.inv m' ∧ K.rel m m'
  names : ∀ {m}, K.inv m → (m.classes.map fun e => e.cls.name).Nodup
  pools : ∀ {m m' : Machine} {name pool},
    K.rel m m' → m.pool? name = some pool → m'.pool? name = some pool

def Native.Polite (native : Native) : Prop :=
  ∀ K : Conduct, K.Free → K.workspace.Speaks fun o => native o.load

def NativeTable.Polite (t : NativeTable) : Prop :=
  ∀ row ∈ t, Native.Polite row.2

def NativeTable.Obeys (t : NativeTable) (K : Conduct) : Prop :=
  ∀ row ∈ t, K.workspace.Speaks fun o => row.2 o.load

theorem NativeTable.Polite.obeys {t : NativeTable} (h : t.Polite) {K : Conduct} (hK : K.Free) :
    t.Obeys K :=
  fun row hrow => h row hrow K hK

namespace Conduct

variable (K : Conduct)

theorem call_speaks {t : NativeTable} (ht : t.Obeys K) (m : Method) :
    K.workspace.Speaks fun o => t.call o.load m := by
  refine .ite (fun _ => .pure ()) fun _ => ?_
  cases hfind : t.find? m.owner m.name with
  | some native => exact ht ((m.owner, m.name), native) (mem_of_lookup hfind)
  | none => exact workspace_fail K nofun

theorem emit_speaks (m : Method) (text : String) :
    K.workspace.Speaks fun _ => Print.emit m text := by
  refine (workspace_onStack K popReference_fails).bind fun _ => .of_same (.modify fun w hinv => ?_)
  exact work_of_eq hinv ⟨rfl, rfl, rfl, rfl⟩ rfl rfl rfl rfl

theorem onNull_speaks (m : Method) : K.workspace.Speaks fun _ => Print.onNull m := by
  unfold Print.onNull
  refine .ite (fun _ => .pure false) fun _ => ?_
  split
  · exact (emit_speaks K m "").bind fun _ => .pure true
  · refine (workspace_onStack K (popValue_fails _)).bind fun value => .get_bind fun w => ?_
    exact (workspace_lift K (Print.valueText_fails _ _ _ value)).bind fun text =>
      (emit_speaks K m text).bind fun _ => .pure true
  · exact .pure false

end Conduct

/-!
# Built-in methods
-/

namespace Native

section

variable (K : Conduct)

theorem popText_speaks (use : String) : K.workspace.Speaks fun _ => popText use :=
  (workspace_onStack K (popObject_fails use)).bind fun address =>
    .get_bind fun w => workspace_lift K (w.machine.textOf_fails address)

theorem popElement_speaks : K.workspace.Speaks fun _ => popElement := by
  refine (workspace_onStack K (popObject_fails _)).bind fun address =>
    (workspace_onMachine K (instanceAt_speaks K address)).bind fun i => ?_
  cases i.reflects with
  | none => exact workspace_fail K nofun
  | some name =>
      dsimp only
      cases Descriptor.component? name with
      | none => exact workspace_fail K nofun
      | some component => exact (Talks.liftMalformed (Element.ofComponent_fails _) K.plain).speaks

theorem pushObject_speaks {x : Oracle → MachineM Nat} (h : K.scene.Speaks x) :
    K.workspace.Speaks fun o => (do pushReference (some (← x o)) : NativeM Unit) :=
  (workspace_onMachine K h).bind fun _ => workspace_onStack K (push_fails _)

theorem stack_speaks {pop : StackM α} {k : α → StackM Unit} (hpop : Fails pop)
    (hk : ∀ a, Fails (k a)) : K.workspace.Speaks fun _ => (do k (← pop) : NativeM Unit) :=
  (workspace_onStack K hpop).bind fun a => workspace_onStack K (hk a)

theorem identityHashCode_speaks : K.workspace.Speaks fun o => identityHashCode o.load := by
  refine (workspace_onStack K popReference_fails).bind fun target => ?_
  cases target with
  | some address => exact workspace_onStack K (push_fails _)
  | none => exact workspace_onStack K (push_fails _)

theorem getClass_speaks : K.workspace.Speaks fun o => getClass o.load :=
  (workspace_onStack K (popObject_fails _)).bind fun address =>
    (workspace_onMachine K (object_speaks K address)).bind fun o =>
      pushObject_speaks K (typeObject_speaks K o.className)

theorem arrayCopy_speaks : K.workspace.Speaks fun o => arrayCopy o.load :=
  (workspace_onStack K popInt_fails).bind fun _ => (workspace_onStack K popInt_fails).bind fun _ =>
    (workspace_onStack K (popObject_fails _)).bind fun _ =>
      (workspace_onStack K popInt_fails).bind fun _ =>
        (workspace_onStack K (popObject_fails _)).bind fun _ =>
          workspace_onMachine K (copyElements_speaks K _ _ _ _ _)

theorem getPrimitiveClass_speaks : K.workspace.Speaks fun o => getPrimitiveClass o.load :=
  (popText_speaks K _).bind fun name => pushObject_speaks K (primitiveClassObject_speaks K name)

theorem isPrimitive_speaks : K.workspace.Speaks fun o => isPrimitive o.load :=
  (workspace_onStack K (popObject_fails _)).bind fun _ =>
    .get_bind fun _ => workspace_onStack K (push_fails _)

theorem getName_speaks : K.workspace.Speaks fun o => getName o.load := by
  refine (workspace_onStack K (popObject_fails _)).bind fun address =>
    (workspace_onMachine K (instanceAt_speaks K address)).bind fun i => ?_
  cases i.reflects with
  | some name => exact pushObject_speaks K (newString_speaks K _)
  | none => exact workspace_fail K nofun

theorem forName_speaks : K.workspace.Speaks fun o => forName o.load :=
  (workspace_onStack K popReference_fails).bind fun _ =>
    (workspace_onStack K popReference_fails).bind fun _ =>
      (workspace_onStack K popInt_fails).bind fun _ =>
        (popText_speaks K _).bind fun _ => pushObject_speaks K (typeObject_speaks K _)

theorem arrayBaseOffset_speaks : K.workspace.Speaks fun o => arrayBaseOffset o.load :=
  (popElement_speaks K).bind fun _ => (workspace_onStack K popReference_fails).bind fun _ =>
    workspace_onStack K (push_fails _)

theorem arrayIndexScale_speaks : K.workspace.Speaks fun o => arrayIndexScale o.load :=
  (popElement_speaks K).bind fun _ => (workspace_onStack K popReference_fails).bind fun _ =>
    workspace_onStack K (push_fails _)

theorem platformProperties_speaks : K.workspace.Speaks fun o => platformProperties o.load :=
  pushObject_speaks K (newArray_speaks K _ _)

theorem vmProperties_speaks : K.workspace.Speaks fun o => vmProperties o.load :=
  (workspace_onMachine K (newArray_speaks K _ _)).bind fun address =>
    (workspace_onMachine K (storeTexts_speaks K address _ _)).bind fun _ =>
      workspace_onStack K (push_fails _)

theorem library_obeys : NativeTable.Obeys library K := by
  simp only [NativeTable.Obeys, library, List.forall_mem_cons, List.not_mem_nil,
    false_implies, implies_true, and_true]
  refine ⟨?_, getClass_speaks K, identityHashCode_speaks K, arrayCopy_speaks K,
    getPrimitiveClass_speaks K, isPrimitive_speaks K, ?_, getName_speaks K, forName_speaks K,
    ?_, ?_, ?_, ?_, ?_, ?_, ?_, ?_, arrayBaseOffset_speaks K, arrayIndexScale_speaks K,
    platformProperties_speaks K, vmProperties_speaks K, ?_⟩
  · exact stack_speaks K (popObject_fails _) fun _ => push_fails _
  · exact stack_speaks K popReference_fails fun _ => push_fails _
  · exact stack_speaks K popFloat_fails fun _ => push_fails _
  · exact stack_speaks K popInt_fails fun _ => push_fails _
  · exact stack_speaks K popDouble_fails fun _ => pushLong_fails _
  · exact stack_speaks K popLong_fails fun _ => pushLong_fails _
  · exact stack_speaks K (popObject_fails _) fun _ => push_fails _
  · exact workspace_onStack K (push_fails _)
  · exact .pure ()
  · exact (workspace_onStack K popReference_fails).bind fun _ => .pure ()
  · exact stack_speaks K popReference_fails fun _ => pushLong_fails _

end

theorem library_polite : NativeTable.Polite library :=
  fun row hrow K _ => library_obeys K row hrow

end Native
end Bytecode
