import Bytecode.Proofs.Contract.Execution
import Bytecode.Proofs.Thread.Equations

/-!
# Runs under a charter

A run keeps every charter that its loader and the native methods keep, however long it is, and the
constant tables and classes of its frames stay known.  Under a grounded charter a run that was given
a method of a registered class always finds the frame that it looks for.
-/

namespace Bytecode

variable {α β : Type}

open Thread Contract

theorem Contract.frameFor_known {m : Machine} {method : Method} {arguments : List Slot}
    {frame : Frame} (h : frameFor m method arguments = .ok frame) : Known frame.pool m := by
  unfold frameFor at h
  split at h
  · cases h
  next cls _ =>
      split at h
      · cases h
      next pool hpool =>
          cases h
          exact hpool

namespace Charter

variable {C : Charter} {load₁ load₂ : Loader} {host : Host} {base : Nat}

def thread (C : Charter) : Terms Thread where
  inv t := C.inv t.machine ∧ ∀ f ∈ t.frames, C.Knows f t.machine
  rel t t' := C.rel t.machine t'.machine
  err := C.err
  rel_refl t := C.rel_refl t.machine
  rel_trans := C.rel_trans

/-- The run that owns the frames above `base` has one left. -/
def Busy (C : Charter) (base : Nat) (t : Thread) : Prop :=
  C.grounded → base < t.frames.length

theorem onFrame_alike (base : Nat) {Q : α → Machine → Prop} {x y : Exec α}
    (h : C.activation.Alike (fun _ => True) (fun b a => Q b a.machine) x y) :
    C.thread.Alike (C.Busy base) (fun b t => Q b t.machine ∧ C.Busy base t) (onFrame x)
      (onFrame y) := by
  intro t hinv hbusy
  rcases t with ⟨m, frames, r⟩
  cases frames with
  | nil => exact ⟨rfl, hinv, C.rel_refl _, C.plain (fun hg => absurd (hbusy hg) nofun) nofun⟩
  | cons f rest =>
      rcases h ⟨f, m⟩ ⟨hinv.1, hinv.2 f List.mem_cons_self⟩ trivial with ⟨heq, hends⟩
      have hmap (z : Exec α) : onFrame z ⟨m, f :: rest, r⟩ =
          Terms.mapState (fun a => ⟨a.machine, a.frame :: rest, r⟩) (z ⟨f, m⟩) := by
        cases hz : z ⟨f, m⟩ <;> simp only [onFrame_cons, Terms.mapState, hz]
      rw [hmap, hmap, heq]
      rw [heq] at hends
      refine ⟨rfl, hends.mapState (fun a ha hrel => ?_) (fun _ _ _ _ hq => ⟨hq, hbusy⟩)
        fun _ hf => hf⟩
      refine ⟨⟨ha.1, fun g hg => ?_⟩, hrel.1⟩
      rcases List.mem_cons.mp hg with rfl | hg
      · exact ha.2
      · exact (hinv.2 g (List.mem_cons_of_mem f hg)).keep hrel.1

theorem onFrame_busy (base : Nat) {x y : Exec α} (h : C.activation.Same x y) :
    C.thread.Alike (C.Busy base) (fun _ => C.Busy base) (onFrame x) (onFrame y) :=
  (onFrame_alike base (Q := fun _ _ => True) h).mono (fun _ _ ht => ht) fun _ _ _ hq => hq.2

/-!
# Calls
-/

theorem pushFrame_alike (host : Host) (method : Method) (arguments : List Slot) :
    C.thread.Alike (fun t => C.Calls method t.machine) (fun _ _ => True)
      (pushFrame host method arguments) (pushFrame host method arguments) := by
  intro t hinv hcalls
  refine ⟨rfl, ?_⟩
  rw [pushFrame_apply]
  have hfound (hg : C.grounded) := (C.closed hinv.1 hg).frameFor (hcalls hg) arguments
  cases hframe : frameFor t.machine method arguments with
  | error f =>
      refine ⟨hinv, C.rel_refl _, C.plain (fun hg => ?_) (frameFor_fails _ _ _ f hframe)⟩
      obtain ⟨frame, hok, -⟩ := hfound hg
      rw [hframe] at hok
      cases hok
  | ok frame =>
      dsimp only
      split
      · exact ⟨hinv, C.rel_refl _, C.ordinary nofun⟩
      · refine ⟨⟨hinv.1, fun f hf => ?_⟩, C.rel_refl _, trivial⟩
        rcases List.mem_cons.mp hf with rfl | hf
        · refine ⟨frameFor_known hframe, fun hg => ?_⟩
          obtain ⟨frame', hok, hclass⟩ := hfound hg
          rw [hframe] at hok
          cases hok
          exact hclass
        · exact hinv.2 f hf

theorem dispatch_alike (hnatives : host.natives.Keeps C) (h : C.Loaders load₁ load₂)
    (method : Method) :
    C.thread.Alike (fun t => C.Calls method t.machine ∧ C.Busy base t) (fun _ _ => True)
      (dispatch host load₁ method) (dispatch host load₂ method) := by
  refine .ite (fun _ => ?_) fun _ => .ite (fun _ => ?_) fun _ => ?_
  · exact (onFrame_busy base (activation_onWorkspace (call_same hnatives h method))).mono
      (fun _ _ ht => ht.2) fun _ _ _ _ => trivial
  · have hfail :=
      activation_fail (C := C) (α := Unit) (f := .illegal (.abstractMethod method.label)) nofun
    exact (onFrame_busy base hfail).mono (fun _ _ ht => ht.2) fun _ _ _ _ => trivial
  · have hpop := onFrame_busy base
      (activation_onStack (C := C) (OperandStack.popSlots_fails method.argumentSlots))
    refine .bind ((hpop.keep (F := fun t => C.Calls method t.machine) Calls.keep).mono
      (fun _ _ ht => ⟨ht.2, ht.1⟩) fun _ _ _ hq => hq.2) fun arguments => ?_
    exact pushFrame_alike host method arguments

theorem doReturn_alike (value : Option Value) :
    C.thread.Alike (C.Busy base) (fun _ _ => True) (doReturn base value)
      (doReturn base value) := by
  intro t hinv hbusy
  refine ⟨rfl, ?_⟩
  rcases t with ⟨m, frames, r⟩
  cases frames with
  | nil => exact ⟨hinv, C.rel_refl _, C.plain (fun hg => absurd (hbusy hg) nofun) nofun⟩
  | cons f rest =>
      have hrest : ∀ g ∈ rest, C.Knows g m := fun g hg =>
        hinv.2 g (List.mem_cons_of_mem f hg)
      rw [doReturn_cons]
      split
      · exact ⟨⟨hinv.1, hrest⟩, C.rel_refl _, trivial⟩
      next hmore =>
          -- the caller's frame is one of the run
          have hcaller : C.Busy base ⟨m, rest, r⟩ := by
            intro hg
            have hlength := hbusy hg
            simp only [List.length_cons] at hlength ⊢
            omega
          cases value with
          | none => exact ⟨⟨hinv.1, hrest⟩, C.rel_refl _, trivial⟩
          | some value =>
              have hpush := activation_onStack (C := C) (OperandStack.pushValue_fails value)
              exact ((onFrame_busy base hpush).mono (fun _ _ ht => ht) (fun _ _ _ _ => trivial)
                ⟨m, rest, r⟩ ⟨hinv.1, hrest⟩ hcaller).2

/-!
# Exceptions
-/

theorem firstHandler_same (h : C.Loaders load₁ load₂) (f : Frame) (exception : Nat)
    (handlers : List Handler) :
    C.Same (firstHandler load₁ f exception handlers) (firstHandler load₂ f exception handlers) := by
  induction handlers with
  | nil => exact .pure none
  | cons handler rest ih =>
      refine .ite (fun _ => .ite (fun _ => .pure _) fun _ => ?_) fun _ => ih
      exact (Charter.liftMalformed_same (f.pool.pool.className_fails _)).bind fun name =>
        (isInstanceOf_same h exception name).bind fun _ => .ite (fun _ => .pure _) fun _ => ih

theorem unwind_alike (h : C.Loaders load₁ load₂) (base exception : Nat) (frames : List Frame) :
    C.thread.Alike (fun t => ∀ f ∈ frames, C.Knows f t.machine) (fun _ _ => True)
      (unwind load₁ base exception frames) (unwind load₂ base exception frames) := by
  -- the search may load classes, which keeps known what is known of the frames
  induction frames with
  | nil =>
      intro t hinv _
      exact ⟨rfl, ⟨hinv.1, nofun⟩, C.rel_refl _, C.ordinary nofun⟩
  | cons f rest ih =>
      intro t hinv hknown
      rcases firstHandler_same h f exception f.method.handlers t.machine hinv.1 trivial with
        ⟨heq, hends⟩
      rw [unwind_cons, unwind_cons]
      split
      · exact ⟨rfl, ⟨hinv.1, hknown⟩, C.rel_refl _, C.ordinary nofun⟩
      · rw [heq]
        rw [heq] at hends
        cases hfirst : firstHandler load₂ f exception f.method.handlers t.machine with
        | error e m =>
            rw [hfirst] at hends
            refine ⟨rfl, ?_⟩
            cases e with
            | fault g =>
                exact ⟨⟨hends.1, fun f' hf' => (hknown f' hf').keep hends.2.1⟩, hends.2⟩
            | outOfFuel => trivial
        | ok found m =>
            rw [hfirst] at hends
            have hknown' : ∀ f' ∈ f :: rest, C.Knows f' m := fun f' hf' =>
              (hknown f' hf').keep hends.2.1
            cases found with
            | some target =>
                refine ⟨rfl, ⟨hends.1, fun f' hf' => ?_⟩, hends.2⟩
                rcases List.mem_cons.mp hf' with rfl | hf'
                · exact hknown' f List.mem_cons_self
                · exact hknown' f' (List.mem_cons_of_mem f hf')
            | none =>
                have hrest : ∀ f' ∈ rest, C.Knows f' m := fun f' hf' =>
                  hknown' f' (List.mem_cons_of_mem f hf')
                rcases ih ⟨m, f :: rest, t.result⟩ ⟨hends.1, hknown'⟩ hrest with ⟨heq', hends'⟩
                have hrel : C.thread.rel t ⟨m, f :: rest, t.result⟩ := hends.2.1
                exact ⟨heq', hends'.of_rel hrel⟩

/-!
# Runs
-/

theorem apply_alike (hnatives : host.natives.Keeps C) (h : C.Loaders load₁ load₂)
    (effect : Effect) :
    C.thread.Alike
      (fun t => (∀ method, effect = .call method → C.Calls method t.machine) ∧ C.Busy base t)
      (fun _ _ => True) (apply host load₁ base effect) (apply host load₂ base effect) := by
  cases effect with
  | next => exact .pure fun _ _ _ => trivial
  | call method =>
      exact (dispatch_alike hnatives h method).mono (fun _ _ ht => ⟨ht.1 method rfl, ht.2⟩)
        fun _ _ _ _ => trivial
  | ret value =>
      exact (doReturn_alike value).mono (fun _ _ ht => ht.2) fun _ _ _ _ => trivial
  | throw exception =>
      intro t hinv _
      exact unwind_alike h base exception t.frames t hinv hinv.2

theorem thread_step_alike (hnatives : host.natives.Keeps C) (h : C.Loaders load₁ load₂)
    (base : Nat) :
    C.thread.Alike (C.Busy base) (fun _ _ => True) (Thread.step host load₁ base)
      (Thread.step host load₂ base) :=
  (onFrame_alike base (Q := fun effect m => ∀ method, effect = .call method → C.Calls method m)
    (step_alike h host.tracing)).bind fun effect => apply_alike hnatives h effect

theorem steps_same (hnatives : host.natives.Keeps C) (h : C.Loaders load₁ load₂) (base fuel : Nat) :
    C.thread.Same (steps host load₁ base fuel) (steps host load₂ base fuel) := by
  induction fuel with
  | zero =>
      intro t _ _
      exact ⟨rfl, trivial⟩
  | succ fuel ih =>
      refine Terms.Alike.get_bind fun t _ => .ite (fun _ => .pure fun _ _ _ => trivial)
        fun hdone => ((thread_step_alike hnatives h base).mono (fun t' _ ht => ?_)
          fun _ _ _ hq => hq).bind fun _ => ih
      subst ht
      intro _
      simpa [isDone] using hdone

theorem run_same (hnatives : host.natives.Keeps C) (h : C.Loaders load₁ load₂) (fuel base : Nat) :
    C.thread.Same (run host load₁ fuel base) (run host load₂ fuel base) := by
  intro t hinv _
  rcases steps_same hnatives h base fuel t hinv trivial with ⟨heq, hends⟩
  unfold run
  rw [heq]
  refine ⟨rfl, ?_⟩
  rw [heq] at hends
  cases hsteps : steps host load₂ base fuel t with
  | ok a t' =>
      rw [hsteps] at hends
      exact hends
  | error e t' =>
      rw [hsteps] at hends
      cases e with
      | outOfFuel => trivial
      | fault f =>
          obtain ⟨log, hlog⟩ := t'.recordFault_eq base f
          have hwork : Machine.Works t'.machine { t'.machine with log } := ⟨rfl, rfl, rfl, rfl⟩
          have hkept := C.work hends.1.1 hwork (Machine.Grows.of_eq rfl) fun hg =>
            (C.ground hends.1.1 hg).congr rfl rfl rfl rfl
          rw [← hlog] at hkept
          refine ⟨⟨hkept.1, fun g hg => ?_⟩, C.rel_trans hends.2.1 hkept.2, hends.2.2⟩
          exact (hends.1.2 g (List.mem_of_mem_drop hg)).keep hkept.2

theorem onFresh_alike {P : Machine → Prop} {x y : ThreadM α}
    (h : C.thread.Alike (fun t => P t.machine) (fun _ _ => True) x y) :
    C.Alike P (fun _ _ => True) (onFresh x) (onFresh y) := by
  refine Terms.Alike.onPart onFresh (fun m => ⟨m, [], none⟩) (fun _ t => t.machine)
    ?_ h ?_ ?_ (fun _ _ _ _ => trivial) fun _ hf => hf
  · intro z m
    cases hz : z ⟨m, [], none⟩ <;> simp only [onFresh, Terms.mapState, hz]
  · intro m hinv hP
    exact ⟨⟨hinv, List.forall_mem_nil _⟩, hP⟩
  · intro m t _ hinv hrel
    exact ⟨hinv.1, hrel⟩

end Charter

/-!
# Native methods that are run
-/

namespace Contract

def onOwnStack (x : NativeM α) (stack : OperandStack) : MachineM α := fun m =>
  match x ⟨stack, m⟩ with
  | .ok a w => .ok a w.machine
  | .error e w => .error e w.machine

def popResult : ValueType → NativeM (Option Value)
  | .void => return none
  | t => some <$> (OperandStack.popValue t : StackM Value)

theorem callNative_eq (host : Host) (load : Loader) (method : Method) (stack : OperandStack) :
    callNative host load method stack =
      onOwnStack (host.natives.call load method >>= fun _ => popResult method.signature.returns)
        stack := by
  funext m
  unfold callNative popResult onOwnStack
  cases method.signature.returns <;> dsimp only <;> split <;> simp_all only

end Contract

namespace Charter

variable {C : Charter} {load₁ load₂ : Loader} {host : Host}

theorem onOwnStack_same {x y : NativeM α} (h : C.workspace.Same x y) (stack : OperandStack) :
    C.Same (onOwnStack x stack) (onOwnStack y stack) := by
  refine Terms.Alike.onPart (onOwnStack · stack) (fun m => ⟨stack, m⟩) (fun _ w => w.machine)
    ?_ h ?_ ?_ (fun _ _ _ hq => hq) fun _ hf => hf
  · intro z m
    cases hz : z ⟨stack, m⟩ <;> simp only [onOwnStack, Terms.mapState, hz]
  · intro m hinv _
    exact ⟨hinv, trivial⟩
  · intro m w _ hinv hrel
    exact ⟨hinv, hrel⟩

theorem callNative_same (hnatives : host.natives.Keeps C) (h : C.Loaders load₁ load₂)
    (method : Method) (stack : OperandStack) :
    C.Same (callNative host load₁ method stack) (callNative host load₂ method stack) := by
  rw [callNative_eq, callNative_eq]
  refine onOwnStack_same ((call_same hnatives h method).bind fun _ => ?_) stack
  unfold popResult
  split
  · exact .pure none
  · exact (workspace_onStack (OperandStack.popValue_fails _)).map some

theorem invoke_alike (hnatives : host.natives.Keeps C) (h : C.Loaders load₁ load₂) (fuel : Nat)
    (method : Method) (arguments : List Value) :
    C.Alike (C.Calls method) (fun _ _ => True) (Thread.invoke host load₁ fuel method arguments)
      (Thread.invoke host load₂ fuel method arguments) := by
  refine .ite (fun _ => .fail_bind (C.ordinary nofun)) fun _ => .ite (fun _ => ?_) fun _ =>
    .ite (fun _ => .fail (C.ordinary nofun)) fun _ => onFresh_alike ?_
  · exact (callNative_same hnatives h method _).alike
  · refine (pushFrame_alike host method _).bind fun _ => ?_
    exact (run_same hnatives h fuel 0).bind fun _ => .get_bind fun _ => .pure _

end Charter

/-!
# Runs under a contract
-/

namespace Contract

variable {C : Contract} {load₁ load₂ : Loader} {host : Host}

def thread (C : Contract) : Terms Thread where
  inv t := C.inv t.machine ∧ ∀ f ∈ t.frames, Known f.pool t.machine
  rel t t' := C.rel t.machine t'.machine
  err := C.err
  rel_refl t := C.rel_refl t.machine
  rel_trans := C.rel_trans

/-- A contract does not ask for more of the frames of a run than their constant tables. -/
theorem thread_same {P : Thread → Prop} {x y : ThreadM α}
    (h : C.charter.thread.Alike P (fun _ _ => True) x y) (hP : ∀ t, P t) :
    C.thread.Same x y := by
  intro t hinv _
  have hknows (f : Frame) (hf : f ∈ t.frames) : C.charter.Knows f t.machine :=
    ⟨hinv.2 f hf, False.elim⟩
  rcases h t ⟨hinv.1, hknows⟩ (hP t) with ⟨heq, hends⟩
  refine ⟨heq, hends.restate (fun t' hinv' hrel => ⟨⟨hinv'.1, fun f hf => ?_⟩, hrel⟩)
    fun _ hf => hf⟩
  exact (hinv'.2 f hf).1

theorem pushFrame_same (host : Host) (method : Method) (arguments : List Slot) :
    C.thread.Same (pushFrame host method arguments) (pushFrame host method arguments) :=
  thread_same (Charter.pushFrame_alike host method arguments) fun _ => False.elim

theorem thread_step_same (hnatives : host.natives.Lawful) (h : C.Loaders load₁ load₂)
    (base : Nat) : C.thread.Same (Thread.step host load₁ base) (Thread.step host load₂ base) :=
  thread_same (Charter.thread_step_alike (hnatives.keeps C) h base) fun _ => False.elim

theorem invoke_same (hnatives : host.natives.Lawful) (h : C.Loaders load₁ load₂) (fuel : Nat)
    (method : Method) (arguments : List Value) :
    C.Same (Thread.invoke host load₁ fuel method arguments)
      (Thread.invoke host load₂ fuel method arguments) :=
  (Charter.invoke_alike (hnatives.keeps C) h fuel method arguments).mono
    (fun _ _ _ => False.elim) fun _ _ _ hq => hq

end Contract
end Bytecode
