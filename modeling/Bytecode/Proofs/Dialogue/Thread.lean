import Bytecode.Proofs.Contract.Thread
import Bytecode.Proofs.Dialogue.Execution

/-!
# Runs in dialogue

A run keeps to every conduct that the native methods keep to, however long it is, and the constant
tables of its frames stay those of the machine.
-/

namespace Bytecode

variable {α β : Type}

open Thread Scene

namespace Thread

def close (base : Nat) : EStateM.Result Halt Thread Unit → EStateM.Result Halt Thread Unit
  | .ok () t => .ok () t
  | .error (.fault f) t =>
      .error (.fault f)
        { t with machine := t.recordFault base f, frames := t.frames.drop (t.frames.length - base) }
  | .error .outOfFuel t => .error .outOfFuel t

theorem run_eq_close (host : Host) (load : Loader) (fuel base : Nat) (t : Thread) :
    run host load fuel base t = close base (steps host load base fuel t) := by
  unfold run close
  rfl

end Thread

namespace Conduct

variable (K : Conduct)

def thread : Scene K Thread where
  inv t := K.inv t.machine ∧ ∀ f ∈ t.frames, K.knows f.pool t.machine
  rel t t' := K.rel t.machine t'.machine
  err := K.err
  rel_refl t := K.rel_refl t.machine
  rel_trans := K.rel_trans
  machine := Thread.machine
  machine_inv h := h.1
  machine_rel := id

variable {K}

theorem onFrame_speaks {x : Oracle → Exec α} (h : K.activation.Speaks x) :
    K.thread.Speaks fun o => onFrame (x o) := by
  intro t hinv _
  rcases t with ⟨m, frames, r⟩
  cases frames with
  | nil => exact .done (fun _ => K.rel_refl _) ⟨hinv, K.rel_refl _, K.plain nofun⟩
  | cons f rest =>
      have hmap (z : Exec α) : onFrame z ⟨m, f :: rest, r⟩ =
          Terms.mapState (fun a => ⟨a.machine, a.frame :: rest, r⟩) (z ⟨f, m⟩) := by
        cases hz : z ⟨f, m⟩ <;> simp only [onFrame_cons, Terms.mapState, hz]
      simp only [hmap]
      refine dialogue_mapState (h ⟨f, m⟩ ⟨hinv.1, hinv.2 f List.mem_cons_self⟩ trivial) _ ?_
        (fun _ _ _ => trivial) (fun _ => rfl) fun _ hf => hf
      intro a ha hrel
      refine ⟨⟨ha.1, fun g hg => ?_⟩, hrel.1⟩
      rcases List.mem_cons.mp hg with rfl | hg
      · exact ha.2
      · exact K.knows_later hrel.1 (hinv.2 g (List.mem_cons_of_mem f hg))

/-!
# Calls
-/

theorem pushFrame_speaks (host : Host) (method : Method) (arguments : List Slot) :
    K.thread.Speaks fun _ => pushFrame host method arguments := by
  apply Speaks.of_same (y := pushFrame host method arguments)
  intro t hinv _
  refine ⟨rfl, ?_⟩
  rw [pushFrame_apply]
  cases hframe : frameFor t.machine method arguments with
  | error f => exact ⟨hinv, K.rel_refl _, K.plain (frameFor_fails _ _ _ f hframe)⟩
  | ok frame =>
      dsimp only
      split
      · exact ⟨hinv, K.rel_refl _, K.plain nofun⟩
      · refine ⟨⟨hinv.1, fun f hf => ?_⟩, K.rel_refl _, trivial⟩
        rcases List.mem_cons.mp hf with rfl | hf
        · exact K.knows_registered (Contract.frameFor_known hframe)
        · exact hinv.2 f hf

theorem doReturn_speaks (base : Nat) (value : Option Value) :
    K.thread.Speaks fun _ => doReturn base value := by
  intro t hinv _
  rcases t with ⟨m, frames, r⟩
  cases frames with
  | nil => exact .done (fun _ => K.rel_refl _) ⟨hinv, K.rel_refl _, K.plain nofun⟩
  | cons f rest =>
      have hrest : ∀ g ∈ rest, K.knows g.pool m := fun g hg =>
        hinv.2 g (List.mem_cons_of_mem f hg)
      simp only [doReturn_cons]
      split
      · exact .done (fun _ => K.rel_refl _) ⟨⟨hinv.1, hrest⟩, K.rel_refl _, trivial⟩
      · cases value with
        | none => exact .done (fun _ => K.rel_refl _) ⟨⟨hinv.1, hrest⟩, K.rel_refl _, trivial⟩
        | some value =>
            exact onFrame_speaks (activation_onStack (OperandStack.pushValue_fails value))
              ⟨m, rest, r⟩ ⟨hinv.1, hrest⟩ trivial

theorem dispatch_speaks {host : Host} (hnatives : host.natives.Obeys K) (method : Method) :
    K.thread.Speaks fun o => dispatch host o.load method :=
  .ite (fun _ => onFrame_speaks (activation_onWorkspace (call_speaks K hnatives method))) fun _ =>
    .ite (fun _ => onFrame_speaks (activation_fail nofun)) fun _ =>
      (onFrame_speaks (activation_onStack (OperandStack.popSlots_fails _))).bind fun arguments =>
        pushFrame_speaks host method arguments

/-!
# Exceptions
-/

theorem thread_onMachine_talks {P : Machine → Prop} {Q : α → Machine → Prop}
    {x : Oracle → MachineM α} (h : K.scene.Talks P Q x) :
    K.thread.Talks (fun t => P t.machine) (fun a t => Q a t.machine) fun o => liftM (x o) := by
  refine Talks.onPart Thread.onMachine Thread.machine (fun t m => ⟨m, t.frames, t.result⟩)
    ?_ h ?_ ?_ (fun _ _ _ hq => hq) (fun _ => rfl) (fun _ _ => rfl) fun _ hf => hf
  · intro z t
    cases hz : z t.machine <;> simp only [Thread.onMachine, Terms.mapState, hz]
  · intro t hinv hP
    exact ⟨hinv.1, hP⟩
  · intro t m hinv hinv' hrel
    exact ⟨⟨hinv', fun f hf => K.knows_later hrel (hinv.2 f hf)⟩, hrel⟩

theorem firstHandler_speaks (f : Frame) (exception : Nat) (handlers : List Handler) :
    K.scene.Speaks fun o => firstHandler o.load f exception handlers := by
  induction handlers with
  | nil => exact .pure none
  | cons handler rest ih =>
      refine .ite (fun _ => .ite (fun _ => .pure _) fun _ => ?_) fun _ => ih
      exact (liftMalformed_speaks K (f.pool.pool.className_fails _)).bind fun name =>
        (isInstanceOf_speaks K exception name).bind fun _ => .ite (fun _ => .pure _) fun _ => ih

theorem setFrames_talks (frames : List Frame) :
    K.thread.Talks (fun t => ∀ f ∈ frames, K.knows f.pool t.machine)
      (fun _ t => ∀ f ∈ frames, K.knows f.pool t.machine)
      fun _ => modify fun t => { t with frames } := by
  apply Talks.of_alike
  apply Terms.Alike.modify
  intro t hinv hknown
  exact ⟨⟨hinv.1, hknown⟩, K.rel_refl _, hknown⟩

theorem unwind_talks (base exception : Nat) (frames : List Frame) :
    K.thread.Talks (fun t => ∀ f ∈ frames, K.knows f.pool t.machine) (fun _ _ => True)
      fun o => unwind o.load base exception frames := by
  induction frames with
  | nil =>
      refine (setFrames_talks []).bind fun _ => Speaks.talks (.get_bind fun t => ?_)
      exact .fail (K.plain nofun)
  | cons f rest ih =>
      simp only [unwind]
      refine (setFrames_talks (f :: rest)).bind fun _ => ?_
      by_cases hbase : rest.length < base
      · simp only [hbase, if_true]
        exact Speaks.talks (.get_bind fun t => .fail_bind (K.plain nofun))
      · simp only [hbase, if_false]
        -- the search for a handler asks for types, and answers keep the tables known
        have hfind : K.scene.Talks (fun m => ∀ g ∈ f :: rest, K.knows g.pool m)
            (fun _ m => ∀ g ∈ f :: rest, K.knows g.pool m)
            fun o => firstHandler o.load f exception f.method.handlers := by
          apply ((firstHandler_speaks f exception f.method.handlers).keep
            (E := fun m => ∀ g ∈ f :: rest, K.knows g.pool m)
            fun hrel hknown g hg => K.knows_later hrel (hknown g hg)).mono
          · exact fun _ _ hknown => ⟨trivial, hknown⟩
          · exact fun _ _ _ hq => hq.2
        refine (thread_onMachine_talks hfind).bind fun found => ?_
        cases found with
        | some target =>
            apply (setFrames_talks _).mono
            · intro t _ hknown g hg
              rcases List.mem_cons.mp hg with rfl | hg
              · exact hknown f List.mem_cons_self
              · exact hknown g (List.mem_cons_of_mem f hg)
            · exact fun _ _ _ _ => trivial
        | none =>
            apply ih.mono
            · exact fun _ _ hknown g hg => hknown g (List.mem_cons_of_mem f hg)
            · exact fun _ _ _ hq => hq

/-!
# Whole runs
-/

theorem onFresh_speaks {x : Oracle → ThreadM α} (h : K.thread.Speaks x) :
    K.scene.Speaks fun o => onFresh (x o) := by
  refine Talks.onPart onFresh (fun m => ⟨m, [], none⟩) (fun _ t => t.machine)
    ?_ h ?_ ?_ (fun _ _ _ hq => hq) (fun _ => rfl) (fun _ _ => rfl) fun _ hf => hf
  · intro z m
    cases hz : z ⟨m, [], none⟩ <;> simp only [onFresh, Terms.mapState, hz]
  · intro m hinv _
    exact ⟨⟨hinv, List.forall_mem_nil _⟩, trivial⟩
  · intro m t _ hinv hrel
    exact ⟨hinv.1, hrel⟩

theorem onOwnStack_speaks {x : Oracle → NativeM α} (h : K.workspace.Speaks x)
    (stack : OperandStack) :
    K.scene.Speaks fun o => Contract.onOwnStack (x o) stack := by
  refine Talks.onPart (Contract.onOwnStack · stack) (fun m => ⟨stack, m⟩) (fun _ w => w.machine)
    ?_ h ?_ ?_ (fun _ _ _ hq => hq) (fun _ => rfl) (fun _ _ => rfl) fun _ hf => hf
  · intro z m
    cases hz : z ⟨stack, m⟩ <;> simp only [Contract.onOwnStack, Terms.mapState, hz]
  · intro m hinv _
    exact ⟨hinv, trivial⟩
  · intro m w _ hinv hrel
    exact ⟨hinv, hrel⟩

theorem recordFault_keeps {t : Thread} (hinv : K.inv t.machine) (base : Nat) (f : Fault) :
    K.inv (t.recordFault base f) ∧ K.rel t.machine (t.recordFault base f) := by
  obtain ⟨log, hlog⟩ := t.recordFault_eq base f
  rw [hlog]
  exact work_of_eq hinv ⟨rfl, rfl, rfl, rfl⟩ rfl rfl rfl rfl

section

variable {host : Host} (hnatives : host.natives.Obeys K)

include hnatives

theorem callNative_speaks (method : Method) (stack : OperandStack) :
    K.scene.Speaks fun o => callNative host o.load method stack := by
  simp only [Contract.callNative_eq]
  refine onOwnStack_speaks ((call_speaks K hnatives method).bind fun _ => ?_) stack
  unfold Contract.popResult
  split
  · exact .pure none
  · exact (workspace_onStack K (OperandStack.popValue_fails _)).map some

theorem apply_speaks (base : Nat) (effect : Effect) :
    K.thread.Speaks fun o => apply host o.load base effect := by
  cases effect with
  | next => exact .pure ()
  | call method => exact dispatch_speaks hnatives method
  | ret value => exact doReturn_speaks base value
  | throw exception =>
      intro t hinv _
      exact unwind_talks base exception t.frames t hinv hinv.2

theorem thread_step_speaks (base : Nat) :
    K.thread.Speaks fun o => Thread.step host o.load base :=
  (onFrame_speaks (step_speaks K host.tracing)).bind fun effect => apply_speaks hnatives base effect

theorem steps_speaks (base fuel : Nat) : K.thread.Speaks fun o => steps host o.load base fuel := by
  induction fuel with
  | zero =>
      intro t _ _
      exact .done (fun hr => absurd trivial hr) trivial
  | succ fuel ih =>
      exact .get_bind fun t => .ite (fun _ => .pure ()) fun _ =>
        (thread_step_speaks hnatives base).bind fun _ => ih

theorem run_speaks (fuel base : Nat) : K.thread.Speaks fun o => run host o.load fuel base := by
  apply (steps_speaks hnatives base fuel).finish (close base) (fun _ _ => run_eq_close ..)
    fun t => ⟨t, rfl⟩
  intro t r hstops hr
  cases r with
  | ok a t' => exact ⟨hr, K.rel_refl _⟩
  | error e t' =>
      cases e with
      | outOfFuel => exact absurd trivial hstops
      | fault f =>
          obtain ⟨hinv', hrel⟩ := recordFault_keeps hr.1.1 base f
          refine ⟨⟨⟨hinv', fun g hg => ?_⟩, K.rel_trans hr.2.1 hrel, hr.2.2⟩, hrel⟩
          exact K.knows_later hrel (hr.1.2 g (List.mem_of_mem_drop hg))

theorem invoke_speaks (fuel : Nat) (method : Method) (arguments : List Value) :
    K.scene.Speaks fun o => Thread.invoke host o.load fuel method arguments := by
  refine .ite (fun _ => .fail_bind (K.plain nofun)) fun _ =>
    .ite (fun _ => ?_) fun _ => .ite (fun _ => .fail (K.plain nofun)) fun _ => ?_
  · exact callNative_speaks hnatives method _
  · exact onFresh_speaks ((pushFrame_speaks host method _).bind fun _ =>
      (run_speaks hnatives fuel 0).bind fun _ => .get_bind fun _ => .pure _)

end

end Conduct
end Bytecode
