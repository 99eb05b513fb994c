import Bytecode.Proofs.Execution.Addresses

/-!
# Confinement

A step works on the innermost frame.  Frames below it change only when the innermost one returns or
throws, and then only the frame at which the return or the search for a handler stops.  A call that
the host makes on a thread leaves all of its frames alone, and there are never more frames than the
host allows.
-/

namespace Bytecode

open Machine

variable {α : Type}

namespace Thread

variable {host : Host} {load : Loader} {base : Nat} {m : Machine} {f : Frame} {rest : List Frame}
  {r : Option Value}

/-!
# What a step leaves
-/

/-- Frames that are left when the innermost frame asks for something, by what it asks for.  The
frames above `base` belong to the run. -/
inductive Leaves (host : Host) (base : Nat) (f : Frame) (rest : List Frame) :
    Effect → List Frame → Prop where
  | next : Leaves host base f rest .next (f :: rest)
  /-- A native method that works on the stack of its caller, or a call that fails. -/
  | called (method : Method) (stack : OperandStack) :
      Leaves host base f rest (.call method) ({ f with stack } :: rest)
  | entered (method : Method) (callee : Frame) (stack : OperandStack)
      (hdepth : (f :: rest).length < host.maxDepth) :
      Leaves host base f rest (.call method) (callee :: { f with stack } :: rest)
  /-- The last frame of the run returns. -/
  | finished (value : Option Value) (hlast : rest.length = base) :
      Leaves host base f rest (.ret value) rest
  | returned {caller : Frame} {outer : List Frame} (value : Option Value)
      (hrest : rest = caller :: outer) (hmore : base ≤ outer.length) :
      Leaves host base f rest (.ret value)
        ({ caller with stack := caller.stack.receive value } :: outer)
  /-- The search for a handler fails. -/
  | dropped {inner kept : List Frame} (exception : Nat) (hframes : f :: rest = inner ++ kept)
      (hkept : base ≤ kept.length) : Leaves host base f rest (.throw exception) kept
  | caught {inner outer : List Frame} {catcher : Frame} (exception : Nat) (stack : OperandStack)
      (pc : Nat) (hframes : f :: rest = inner ++ catcher :: outer) (hkept : base ≤ outer.length) :
      Leaves host base f rest (.throw exception) ({ catcher with stack, pc } :: outer)

theorem onFrame_lastState (x : Exec α) :
    lastState (onFrame x ⟨m, f :: rest, r⟩) =
      ⟨(lastState (x ⟨f, m⟩)).machine, (lastState (x ⟨f, m⟩)).frame :: rest, r⟩ := by
  rw [onFrame_cons]
  cases x ⟨f, m⟩ <;> rfl

theorem onWorkspace_lastState (x : NativeM α) (a : Activation) :
    ∃ stack, (lastState ((liftM x : Exec α) a)).frame = { a.frame with stack } := by
  show ∃ stack, (lastState (Activation.onWorkspace x a)).frame = _
  cases hx : x ⟨a.frame.stack, a.machine⟩ with
  | ok b w => exact ⟨w.stack, by simp only [Activation.onWorkspace, hx, lastState]⟩
  | error e w => exact ⟨w.stack, by simp only [Activation.onWorkspace, hx, lastState]⟩

theorem dispatch_leaves (host : Host) (load : Loader) (base : Nat) (method : Method) (m : Machine)
    (f : Frame) (rest : List Frame) (r : Option Value) :
    Leaves host base f rest (.call method)
      (lastState (dispatch host load method ⟨m, f :: rest, r⟩)).frames := by
  unfold dispatch
  split
  next hnative =>
      obtain ⟨stack, hstack⟩ := onWorkspace_lastState (host.natives.call load method) ⟨f, m⟩
      rw [onFrame_lastState, hstack]
      exact .called method stack
  next =>
      split
      next habstract => exact .called method f.stack
      next =>
          have hpop := onFrame_cons
            (OperandStack.popSlots method.argumentSlots : StackM (List Slot)) m f rest r
          rw [onStack_apply] at hpop
          cases hslots : OperandStack.popSlots method.argumentSlots f.stack with
          | error e stack =>
              simp only [hslots] at hpop
              rw [bind_of_error hpop]
              exact .called method stack
          | ok arguments stack =>
              simp only [hslots] at hpop
              rw [bind_of_ok hpop, pushFrame_apply]
              split
              next => exact .called method stack
              next callee _ =>
                  split
                  next => exact .called method stack
                  next hdepth => exact .entered method callee stack (Nat.not_le.mp hdepth)

theorem doReturn_leaves (hbase : base ≤ rest.length) (host : Host) (value : Option Value)
    (m : Machine) (f : Frame) (r : Option Value) :
    ∃ t, doReturn base value ⟨m, f :: rest, r⟩ = .ok () t ∧
      Leaves host base f rest (.ret value) t.frames := by
  rw [doReturn_cons]
  split
  next hlast => exact ⟨_, rfl, .finished value hlast⟩
  next hmore =>
      cases rest with
      | nil => exact absurd (Nat.le_antisymm (Nat.zero_le base) hbase) hmore
      | cons caller outer =>
          have hkept : base ≤ outer.length := by
            simp only [List.length_cons] at hbase hmore
            omega
          cases value with
          | none => exact ⟨_, rfl, .returned none rfl hkept⟩
          | some value =>
              exact ⟨_, onFrame_pushValue value m caller outer r, .returned (some value) rfl hkept⟩

/-- A search for a handler goes through frames from the innermost on, and changes none but the one
that has the handler. -/
theorem unwind_leaves (load : Loader) (exception : Nat) (frames : List Frame)
    (hbase : base ≤ frames.length) (t : Thread) :
    ∃ inner kept, frames = inner ++ kept ∧ base ≤ kept.length ∧
      ((lastState (unwind load base exception frames t)).frames = kept ∨
        ∃ catcher outer stack pc, kept = catcher :: outer ∧ base ≤ outer.length ∧
          (lastState (unwind load base exception frames t)).frames =
            { catcher with stack, pc } :: outer) := by
  -- frames are dropped until one has a handler or the run has none left
  induction frames generalizing t with
  | nil => exact ⟨[], [], rfl, hbase, .inl rfl⟩
  | cons f rest ih =>
      rw [unwind_cons]
      split
      next hend => exact ⟨[], f :: rest, rfl, hbase, .inl rfl⟩
      next hmore =>
          have hrest : base ≤ rest.length := Nat.not_lt.mp hmore
          split
          next => exact ⟨[], f :: rest, rfl, hbase, .inl rfl⟩
          next target m _ =>
              exact ⟨[], f :: rest, rfl, hbase, .inr ⟨f, rest, _, target, rfl, hrest, rfl⟩⟩
          next m _ =>
              obtain ⟨inner, kept, hframes, hkept, hafter⟩ := ih hrest ⟨m, f :: rest, t.result⟩
              exact ⟨f :: inner, kept, congrArg (f :: ·) hframes, hkept, hafter⟩

theorem doThrow_leaves (hbase : base ≤ rest.length) (host : Host) (load : Loader) (exception : Nat)
    (m : Machine) (f : Frame) (r : Option Value) :
    Leaves host base f rest (.throw exception)
      (lastState (doThrow load base exception ⟨m, f :: rest, r⟩)).frames := by
  obtain ⟨inner, kept, hframes, hkept, hafter⟩ := unwind_leaves load exception (f :: rest)
    (Nat.le_succ_of_le hbase) ⟨m, f :: rest, r⟩
  unfold doThrow
  rw [get_bind]
  rcases hafter with hafter | ⟨catcher, outer, stack, pc, rfl, houter, hafter⟩
  · rw [hafter]
    exact .dropped exception hframes hkept
  · rw [hafter]
    exact .caught exception stack pc hframes houter

theorem apply_leaves (hbase : base ≤ rest.length) (host : Host) (load : Loader) (effect : Effect)
    (m : Machine) (f : Frame) (r : Option Value) :
    Leaves host base f rest effect
      (lastState (apply host load base effect ⟨m, f :: rest, r⟩)).frames := by
  cases effect with
  | next => exact .next
  | call method => exact dispatch_leaves host load base method m f rest r
  | ret value =>
      obtain ⟨t, hreturn, hleaves⟩ := doReturn_leaves hbase host value m f r
      show Leaves host base f rest (.ret value) (lastState (doReturn base value _)).frames
      rw [hreturn]
      exact hleaves
  | throw exception => exact doThrow_leaves hbase host load exception m f r

theorem step_cons (host : Host) (load : Loader) (base : Nat) (m : Machine) (f : Frame)
    (rest : List Frame) (r : Option Value) :
    step host load base ⟨m, f :: rest, r⟩ =
      match Exec.step load host.tracing ⟨f, m⟩ with
      | .ok effect a => apply host load base effect ⟨a.machine, a.frame :: rest, r⟩
      | .error e a => .error e ⟨a.machine, a.frame :: rest, r⟩ := by
  have hframe := onFrame_cons (Exec.step load host.tracing) m f rest r
  unfold step
  cases hexec : Exec.step load host.tracing ⟨f, m⟩ with
  | ok effect a =>
      rw [hexec] at hframe
      rw [bind_of_ok hframe]
  | error e a =>
      rw [hexec] at hframe
      rw [bind_of_error hframe]

theorem step_keeps_frame (base : Nat) (rest : List Frame) (r : Option Value) {effect : Effect}
    {a : Activation} (hstep : Exec.step load host.tracing ⟨f, m⟩ = .ok effect a)
    (heffect : effect = .next ∨ ∃ method, effect = .call method) :
    ∃ inner stack, inner.length ≤ 1 ∧
      (lastState (step host load base ⟨m, f :: rest, r⟩)).frames =
        inner ++ { a.frame with stack } :: rest := by
  have hleaves : Leaves host base a.frame rest effect
      (lastState (step host load base ⟨m, f :: rest, r⟩)).frames := by
    rw [step_cons, hstep]
    rcases heffect with rfl | ⟨method, rfl⟩
    · exact .next
    · exact dispatch_leaves host load base method a.machine a.frame rest r
  generalize (lastState (step host load base ⟨m, f :: rest, r⟩)).frames = frames at hleaves
  rcases heffect with rfl | ⟨method, rfl⟩
  · cases hleaves with
    | next => exact ⟨[], a.frame.stack, Nat.zero_le 1, rfl⟩
  · cases hleaves with
    | called _ stack => exact ⟨[], stack, Nat.zero_le 1, rfl⟩
    | entered _ callee stack _ => exact ⟨[callee], stack, Nat.le_refl 1, rfl⟩

/-!
# Runs
-/

theorem Leaves.suffix {effect : Effect} {frames below : List Frame}
    (h : Leaves host below.length f rest effect frames) (hbelow : below <:+ rest) :
    below <:+ frames := by
  have hcut {inner kept : List Frame} (hframes : f :: rest = inner ++ kept)
      (hkept : below.length ≤ kept.length) : below <:+ kept := by
    have hwhole : below <:+ inner ++ kept := hframes ▸ hbelow.trans (List.suffix_cons f rest)
    exact List.suffix_of_suffix_length_le hwhole (List.suffix_append inner kept) hkept
  cases h with
  | next => exact hbelow.trans (List.suffix_cons f rest)
  | called method stack => exact hbelow.trans (List.suffix_cons _ rest)
  | entered method callee stack _ =>
      exact (hbelow.trans (List.suffix_cons _ rest)).trans (List.suffix_cons callee _)
  | finished value hlast => exact hbelow
  | returned value hrest hmore =>
      subst hrest
      have houter := List.suffix_of_suffix_length_le hbelow (List.suffix_cons _ _) hmore
      exact houter.trans (List.suffix_cons _ _)
  | dropped exception hframes hkept => exact hcut hframes hkept
  | @caught inner outer catcher exception stack pc hframes hkept =>
      rw [List.append_cons] at hframes
      exact (hcut hframes hkept).trans (List.suffix_cons _ outer)

/-- A step of a run leaves the frames that do not belong to it. -/
theorem step_suffix {t : Thread} {below : List Frame} (hbelow : below <:+ t.frames)
    (hmore : t.isDone below.length = false) (host : Host) (load : Loader) :
    below <:+ (lastState (step host load below.length t)).frames := by
  rcases t with ⟨m, frames, r⟩
  have hlonger : below.length < frames.length := by
    simpa [isDone] using hmore
  cases frames with
  | nil => exact absurd hlonger (Nat.not_lt_zero _)
  | cons f rest =>
      have hbase : below.length ≤ rest.length := Nat.le_of_lt_succ hlonger
      have hrest : below <:+ rest :=
        List.suffix_of_suffix_length_le hbelow (List.suffix_cons f rest) hbase
      rw [step_cons]
      cases Exec.step load host.tracing ⟨f, m⟩ with
      | error e a => exact hrest.trans (List.suffix_cons a.frame rest)
      | ok effect a => exact (apply_leaves hbase host load effect a.machine a.frame r).suffix hrest

theorem steps_suffix {t : Thread} {below : List Frame} (hbelow : below <:+ t.frames) (host : Host)
    (load : Loader) (fuel : Nat) :
    below <:+ (lastState (steps host load below.length fuel t)).frames := by
  induction fuel generalizing t with
  | zero => exact hbelow
  | succ fuel ih =>
      rw [steps_succ]
      split
      next => exact hbelow
      next hmore =>
          have hstep := step_suffix hbelow (Bool.eq_false_iff.mpr hmore) host load
          cases hstepped : step host load below.length t with
          | error e t' =>
              rw [hstepped] at hstep
              rw [bind_of_error hstepped]
              exact hstep
          | ok u t' =>
              rw [hstepped] at hstep
              rw [bind_of_ok hstepped]
              exact ih hstep

theorem isDone_of_steps {t t' : Thread} {fuel : Nat}
    (h : steps host load base fuel t = .ok () t') : t'.isDone base = true := by
  induction fuel generalizing t with
  | zero => cases h
  | succ fuel ih =>
      rw [steps_succ] at h
      split at h
      next hdone =>
          cases h
          exact hdone
      next =>
          obtain ⟨⟨⟩, t₁, -, hrest⟩ := bind_eq_ok h
          exact ih hrest

theorem run_frames {t : Thread} {below : List Frame} (hbelow : below <:+ t.frames) (host : Host)
    (load : Loader) (fuel : Nat) (hends : ¬ Stops (run host load fuel below.length t)) :
    (lastState (run host load fuel below.length t)).frames = below := by
  have hsuffix := steps_suffix hbelow host load fuel
  unfold run at hends ⊢
  cases hsteps : steps host load below.length fuel t with
  | ok u t' =>
      rw [hsteps] at hsuffix
      have hlength : t'.frames.length ≤ below.length := by
        simpa [isDone] using isDone_of_steps hsteps
      exact (hsuffix.eq_of_length_le hlength).symm
  | error e t' =>
      rw [hsteps] at hsuffix hends
      cases e with
      | fault g => exact (List.suffix_iff_eq_drop.mp hsuffix).symm
      | outOfFuel => exact absurd trivial hends

/-!
# Calls of the host
-/

def runAtop (host : Host) (load : Loader) (fuel : Nat) (method : Method) (arguments : List Slot) :
    ThreadM (Option Value) := do
  let base := (← get).frames.length
  pushFrame host method arguments
  run host load fuel base
  modifyGet fun t => (t.result, { t with result := none })

def invokeAtop (host : Host) (load : Loader) (fuel : Nat) (method : Method)
    (arguments : List Value) : ThreadM (Option Value) := do
  let stack := OperandStack.ofValues arguments
  if stack.size ≠ method.argumentSlots then
    illegal (.argumentCount method.label method.argumentSlots stack.size)
  if method.isNative then
    (callNative host load method stack : MachineM (Option Value))
  else if method.isAbstract then
    illegal (.abstractMethod method.label)
  else
    runAtop host load fuel method stack.toList

theorem runAtop_apply (host : Host) (load : Loader) (fuel : Nat) (method : Method)
    (arguments : List Slot) (t : Thread) :
    runAtop host load fuel method arguments t =
      match pushFrame host method arguments t with
      | .error e t' => .error e t'
      | .ok _ t' =>
          match run host load fuel t.frames.length t' with
          | .error e t'' => .error e t''
          | .ok _ t'' => .ok t''.result { t'' with result := none } := by
  unfold runAtop
  rw [get_bind]
  cases hpush : pushFrame host method arguments t with
  | error e t' => exact bind_of_error hpush
  | ok u t' =>
      rw [bind_of_ok hpush]
      dsimp only
      cases hrun : run host load fuel t.frames.length t' with
      | error e t'' => exact bind_of_error hrun
      | ok u' t'' => exact bind_of_ok hrun

theorem invoke_eq_invokeAtop (host : Host) (load : Loader) (fuel : Nat) (method : Method)
    (arguments : List Value) :
    invoke host load fuel method arguments =
      onFresh (invokeAtop host load fuel method arguments) := by
  funext m
  unfold invoke invokeAtop
  by_cases hsize : (OperandStack.ofValues arguments).size = method.argumentSlots
  · simp only [hsize, ne_eq, not_true, if_false]
    cases method.isNative with
    | true =>
        simp only [if_true]
        unfold onFresh
        rw [onMachine_apply]
        cases callNative host load method (OperandStack.ofValues arguments) m <;> rfl
    | false =>
        cases method.isAbstract with
        | true => rfl
        | false =>
            simp only [Bool.false_eq_true, if_false]
            unfold onFresh
            rw [runAtop_apply]
            cases hpush : pushFrame host method (OperandStack.ofValues arguments).toList
                ⟨m, [], none⟩ with
            | error e t => rw [bind_of_error hpush]
            | ok u t =>
                rw [bind_of_ok hpush]
                dsimp only [List.length_nil]
                cases hrun : run host load fuel 0 t with
                | error e t' => rw [bind_of_error hrun]
                | ok u' t' =>
                    rw [bind_of_ok hrun]
                    rfl
  · simp only [ne_eq, hsize, not_false_eq_true, if_true]
    rfl

theorem pushFrame_suffix (host : Host) (method : Method) (arguments : List Slot) (t : Thread) :
    t.frames <:+ (lastState (pushFrame host method arguments t)).frames := by
  rw [pushFrame_apply]
  split
  next => exact List.suffix_refl t.frames
  next callee _ =>
      split
      next => exact List.suffix_refl t.frames
      next => exact List.suffix_cons callee t.frames

theorem pushFrame_eq_error {method : Method} {arguments : List Slot} {t t' : Thread} {e : Halt}
    (h : pushFrame host method arguments t = .error e t') : t' = t := by
  rw [pushFrame_apply] at h
  split at h
  next =>
      cases h
      rfl
  next =>
      split at h
      next =>
          cases h
          rfl
      next => cases h

theorem runAtop_frames (host : Host) (load : Loader) (fuel : Nat) (method : Method)
    (arguments : List Slot) (t : Thread)
    (hends : ¬ Stops (runAtop host load fuel method arguments t)) :
    (lastState (runAtop host load fuel method arguments t)).frames = t.frames := by
  have hsuffix := pushFrame_suffix host method arguments t
  rw [runAtop_apply] at hends ⊢
  cases hpush : pushFrame host method arguments t with
  | error e t' =>
      obtain rfl := pushFrame_eq_error hpush
      rfl
  | ok u t' =>
      rw [hpush] at hsuffix hends
      have hrun := run_frames (t := t') hsuffix host load fuel
      dsimp only at hends ⊢
      cases hresult : run host load fuel t.frames.length t' with
      | error e t'' =>
          rw [hresult] at hrun hends
          cases e with
          | fault g => exact hrun id
          | outOfFuel => exact absurd trivial hends
      | ok u' t'' =>
          rw [hresult] at hrun
          exact hrun id

theorem invokeAtop_frames (host : Host) (load : Loader) (fuel : Nat) (method : Method)
    (arguments : List Value) (t : Thread)
    (hends : ¬ Stops (invokeAtop host load fuel method arguments t)) :
    (lastState (invokeAtop host load fuel method arguments t)).frames = t.frames := by
  unfold invokeAtop at hends ⊢
  by_cases hsize : (OperandStack.ofValues arguments).size = method.argumentSlots
  · simp only [hsize, ne_eq, not_true, if_false] at hends ⊢
    cases hnative : method.isNative with
    | true =>
        simp only [if_true]
        rw [onMachine_apply]
        cases callNative host load method (OperandStack.ofValues arguments) t.machine <;> rfl
    | false =>
        cases habstract : method.isAbstract with
        | true => rfl
        | false =>
            simp only [hnative, habstract, Bool.false_eq_true, if_false] at hends ⊢
            exact runAtop_frames host load fuel method _ t hends
  · simp only [ne_eq, hsize, not_false_eq_true, if_true]
    rfl

/-!
# Depth
-/

theorem Leaves.depth {effect : Effect} {frames : List Frame}
    (h : Leaves host base f rest effect frames) (hdepth : (f :: rest).length ≤ host.maxDepth) :
    frames.length ≤ host.maxDepth := by
  have hcut {inner kept : List Frame} (hframes : f :: rest = inner ++ kept) :
      kept.length ≤ host.maxDepth := by
    rw [hframes, List.length_append] at hdepth
    omega
  cases h with
  | next => exact hdepth
  | called method stack => exact hdepth
  | entered method callee stack hfree => exact hfree
  | finished value hlast => exact Nat.le_of_succ_le hdepth
  | returned value hrest hmore =>
      subst hrest
      exact Nat.le_of_succ_le hdepth
  | dropped exception hframes hkept => exact hcut hframes
  | caught exception stack pc hframes hkept =>
      have hkept' := hcut hframes
      exact hkept'

theorem step_depth {t : Thread} (hbase : base < t.frames.length)
    (hdepth : t.frames.length ≤ host.maxDepth) (load : Loader) :
    (lastState (step host load base t)).frames.length ≤ host.maxDepth := by
  rcases t with ⟨m, frames, r⟩
  cases frames with
  | nil => exact absurd hbase (Nat.not_lt_zero _)
  | cons f rest =>
      rw [step_cons]
      cases Exec.step load host.tracing ⟨f, m⟩ with
      | error e a => exact hdepth
      | ok effect a =>
          exact (apply_leaves (Nat.le_of_lt_succ hbase) host load effect a.machine a.frame r).depth
            hdepth

end Thread

section

variable {host : Host} {fuel : Nat}

theorem Unfolds.depth {x : Task} {m : Machine} {t : Thread} {events : List Event}
    (h : Unfolds host fuel x m (.running t) events) : t.frames.length ≤ host.maxDepth := by
  generalize hstage : Stage.running t = stage at h
  -- only a call makes the stack deeper, and it makes sure that there is room
  induction h generalizing t with
  | start _ _ _ => cases hstage
  | ask _ _ _ => cases hstage
  | answer _ _ _ _ _ _ => cases hstage
  | answering _ _ _ _ _ => cases hstage
  | stepping _ _ _ _ _ => cases hstage
  | enter htakes hpush =>
      cases hstage
      rw [Thread.pushFrame_apply] at hpush
      split at hpush
      next => cases hpush
      next =>
          split at hpush
          next => cases hpush
          next hfree =>
              cases hpush
              exact Nat.not_le.mp hfree
  | @step fuel x m t₀ t' stage events inner _ hframes _ hstep ih _ =>
      cases hstage
      have hdepth := Thread.step_depth (List.length_pos_iff.mpr hframes) (ih rfl) (host.load fuel)
      rw [hstep] at hdepth
      exact hdepth

theorem Host.Underway.depth {frames : List Frame} {r : Option Value} {m : Machine}
    (h : host.Underway fuel (.step frames r) m) : frames.length ≤ host.maxDepth := by
  generalize hx : Task.step frames r = x at h
  cases h with
  | request _ _ _ _ => cases hx
  | run _ _ _ _ _ => cases hx
  | @asked _ _ _ _ _ _ q _ _ _ _ => cases q <;> cases hx
  | step _ hruns _ =>
      cases hx
      exact hruns.depth

end

/-!
# Calls of code
-/

theorem OperandStack.popSlots_of_le {count : Nat} {s : OperandStack} (h : count ≤ s.size) :
    popSlots count s = .ok (s.slots.take count).reverse ⟨s.slots.drop count⟩ := by
  unfold popSlots
  rw [get_bind, if_neg (Nat.not_lt.mpr h)]
  rfl

def Frame.less (f : Frame) (count : Nat) : Frame :=
  { f with stack := ⟨f.stack.slots.drop count⟩ }

/-- A call of a method with code, with its arguments on the stack, puts a frame on the others, or
fails when there is no room for it. -/
theorem Thread.dispatch_code {host : Host} {method : Method} {m : Machine} {f : Frame}
    (hnative : method.isNative = false) (habstract : method.isAbstract = false)
    (henough : method.argumentSlots ≤ f.stack.size)
    (hframe : ∀ arguments, ∃ callee, frameFor m method arguments = .ok callee) (load : Loader)
    (rest : List Frame) (r : Option Value) :
    ∃ callee, dispatch host load method ⟨m, f :: rest, r⟩ =
      if host.maxDepth ≤ (f :: rest).length then
        .error (.fault (.stackOverflow host.maxDepth)) ⟨m, f.less method.argumentSlots :: rest, r⟩
      else
        .ok () ⟨m, callee :: f.less method.argumentSlots :: rest, r⟩ := by
  obtain ⟨callee, hcallee⟩ := hframe (f.stack.slots.take method.argumentSlots).reverse
  have hpop : onFrame (OperandStack.popSlots method.argumentSlots : StackM (List Slot))
      ⟨m, f :: rest, r⟩ = .ok (f.stack.slots.take method.argumentSlots).reverse
        ⟨m, f.less method.argumentSlots :: rest, r⟩ := by
    rw [onFrame_cons, onStack_apply, OperandStack.popSlots_of_le henough]
    rfl
  refine ⟨callee, ?_⟩
  unfold dispatch
  simp only [hnative, habstract, Bool.false_eq_true, if_false]
  rw [bind_of_ok hpop, pushFrame_apply]
  simp only [hcallee]
  rfl

section

variable {host : Host} {fuel : Nat} {m : Machine} {f : Frame} {rest : List Frame}
  {r : Option Value}

theorem Host.Underway.called (hnatives : ∀ C, host.natives.Keeps C)
    (h : host.Underway fuel (.step (f :: rest) r) m) {method : Method} {a : Activation}
    (hcall : Exec.step (host.load fuel) host.tracing ⟨f, m⟩ = .ok (.call method) a)
    (arguments : List Slot) :
    ∃ callee, Thread.frameFor a.machine method arguments = .ok callee := by
  obtain ⟨hm, -, hknown⟩ := h.founded hnatives
  obtain ⟨hpool, hcls⟩ := hknown f List.mem_cons_self
  have hends := (Charter.step_alike ((oracle_serves hnatives fuel).load False) host.tracing
    ⟨f, m⟩ ⟨⟨hm, False.elim⟩, hpool, fun _ => hcls⟩ trivial).2
  rw [show (host.oracle fuel).load = host.load fuel from rfl, hcall] at hends
  obtain ⟨hinv, -, hfits⟩ := hends
  obtain ⟨callee, hcallee, -⟩ := hinv.1.1.closed.frameFor (hfits method rfl trivial) arguments
  exact ⟨callee, hcallee⟩

/-- What a step may touch of a thread whose innermost frame is `f`, in a run that owns the frames
above `base`. -/
structure Thread.Confined (host : Host) (load : Loader) (base : Nat) (m : Machine) (f : Frame)
    (rest : List Frame) (r : Option Value) : Prop where
  /-- Only instructions that return or throw ask for it. -/
  asks : ∀ {effect a}, Exec.step load host.tracing ⟨f, m⟩ = .ok effect a →
    ∃ i behind, f.Next i behind ∧ i.MayAsk effect
  /-- An instruction that fails changes its own frame only. -/
  fails : ∀ {e a}, Exec.step load host.tracing ⟨f, m⟩ = .error e a →
    step host load base ⟨m, f :: rest, r⟩ = .error e ⟨a.machine, a.frame :: rest, r⟩
  /-- One that neither returns nor throws puts at most one frame on the others. -/
  goesOn : (∀ i behind, f.Next i behind → i.GoesOn) →
    ∃ inner f', inner.length ≤ 1 ∧
      (lastState (step host load base ⟨m, f :: rest, r⟩)).frames = inner ++ f' :: rest
  /-- A return ends a frame, and gives its value to the frame below if that is one of the run. -/
  returns : ∀ {value a}, Exec.step load host.tracing ⟨f, m⟩ = .ok (.ret value) a →
    ∃ t, step host load base ⟨m, f :: rest, r⟩ = .ok () t ∧
      (rest.length = base ∧ t.frames = rest ∨
        ∃ caller outer, rest = caller :: outer ∧
          t.frames = { caller with stack := caller.stack.receive value } :: outer)
  /-- An exception ends frames from the innermost on, and changes only the one where it stops. -/
  throws : ∀ {exception a}, Exec.step load host.tracing ⟨f, m⟩ = .ok (.throw exception) a →
    ∃ inner kept, a.frame :: rest = inner ++ kept ∧
      ((lastState (step host load base ⟨m, f :: rest, r⟩)).frames = kept ∨
        ∃ catcher outer stack pc, kept = catcher :: outer ∧
          (lastState (step host load base ⟨m, f :: rest, r⟩)).frames =
            { catcher with stack, pc } :: outer)

theorem Thread.confined {base : Nat} (hbase : base ≤ rest.length) (host : Host) (load : Loader)
    (m : Machine) (f : Frame) (r : Option Value) : Confined host load base m f rest r := by
  have hstep := step_cons host load base m f rest r
  have hleaves {effect : Effect} {a : Activation}
      (h : Exec.step load host.tracing ⟨f, m⟩ = .ok effect a) :
      Leaves host base a.frame rest effect
        (lastState (step host load base ⟨m, f :: rest, r⟩)).frames := by
    rw [hstep, h]
    exact apply_leaves hbase host load effect a.machine a.frame r
  refine ⟨Exec.step_mayAsk, ?_, ?_, ?_, ?_⟩
  · intro e a h
    rw [hstep, h]
  · intro hgoes
    cases h : Exec.step load host.tracing ⟨f, m⟩ with
    | error e a =>
        rw [hstep, h]
        exact ⟨[], a.frame, Nat.zero_le 1, rfl⟩
    | ok effect a =>
        obtain ⟨i, behind, hnext, hasks⟩ := Exec.step_mayAsk h
        obtain ⟨inner, stack, hinner, hframes⟩ :=
          step_keeps_frame base rest r h ((hgoes i behind hnext).next_or_call hasks)
        exact ⟨inner, _, hinner, hframes⟩
  · intro value a h
    obtain ⟨t, hreturn, hleft⟩ := doReturn_leaves hbase host value a.machine a.frame r
    refine ⟨t, ?_, ?_⟩
    · rw [hstep, h]
      exact hreturn
    · generalize t.frames = frames at hleft
      cases hleft with
      | finished _ hlast => exact .inl ⟨hlast, rfl⟩
      | returned _ hrest _ => exact .inr ⟨_, _, hrest, rfl⟩
  · intro exception a h
    have hleft := hleaves h
    generalize (lastState (step host load base ⟨m, f :: rest, r⟩)).frames = frames at hleft
    cases hleft with
    | dropped _ hframes _ => exact ⟨_, _, hframes, .inl rfl⟩
    | caught _ stack pc hframes _ => exact ⟨_, _, hframes, .inr ⟨_, _, stack, pc, rfl, rfl⟩⟩

/-- Wherever a thread has come, a step of it touches its innermost frame only, but for what a return
or an exception does to the frame at which it stops; there are never more frames than the host
allows, and a call of code fails for want of room exactly when there are as many.  A call of the
host, on whatever thread it is made, leaves the frames as it found them when it has ended, well or
not. -/
theorem Host.Underway.step_confined (h : host.Underway fuel (.step (f :: rest) r) m) :
    (∀ base ≤ rest.length, Thread.Confined host (host.load fuel) base m f rest r) ∧
    ((f :: rest).length ≤ host.maxDepth ∧ ∀ base ≤ rest.length,
      (lastState (Thread.step host (host.load fuel) base ⟨m, f :: rest, r⟩)).frames.length ≤
        host.maxDepth) ∧
    ((∀ C, host.natives.Keeps C) → ∀ base {method a},
      Exec.step (host.load fuel) host.tracing ⟨f, m⟩ = .ok (.call method) a →
      method.isNative = false → method.isAbstract = false →
      method.argumentSlots ≤ a.frame.stack.size →
        (Thread.step host (host.load fuel) base ⟨m, f :: rest, r⟩ =
            .error (.fault (.stackOverflow host.maxDepth))
              ⟨a.machine, a.frame.less method.argumentSlots :: rest, r⟩ ↔
          (f :: rest).length = host.maxDepth) ∧
        ((f :: rest).length ≠ host.maxDepth → ∃ callee,
          Thread.step host (host.load fuel) base ⟨m, f :: rest, r⟩ =
            .ok () ⟨a.machine, callee :: a.frame.less method.argumentSlots :: rest, r⟩)) ∧
    ∀ (load : Loader) (fuel : Nat) (method : Method) (arguments : List Value),
      Thread.invoke host load fuel method arguments =
        Thread.onFresh (Thread.invokeAtop host load fuel method arguments) ∧
      ∀ t, ¬ Stops (Thread.invokeAtop host load fuel method arguments t) →
        (lastState (Thread.invokeAtop host load fuel method arguments t)).frames = t.frames := by
  refine ⟨fun base hbase => Thread.confined hbase host _ m f r, ⟨h.depth, fun base hbase =>
    Thread.step_depth (Nat.lt_succ_of_le hbase) h.depth _⟩, ?_, fun load fuel method arguments =>
      ⟨Thread.invoke_eq_invokeAtop host load fuel method arguments,
        Thread.invokeAtop_frames host load fuel method arguments⟩⟩
  intro hnatives base method a hcall hnative habstract henough
  obtain ⟨callee, hdispatch⟩ := Thread.dispatch_code hnative habstract henough
    (h.called hnatives hcall) (host.load fuel) rest r
  have hstep : Thread.step host (host.load fuel) base ⟨m, f :: rest, r⟩ =
      Thread.dispatch host (host.load fuel) method ⟨a.machine, a.frame :: rest, r⟩ := by
    rw [Thread.step_cons, hcall]
    rfl
  have hdepth : (f :: rest).length ≤ host.maxDepth := h.depth
  have hlength : (a.frame :: rest).length = (f :: rest).length := rfl
  rw [hstep, hdispatch, hlength]
  -- a thread is never too deep, so it is full or has room for one frame more
  by_cases hfull : (f :: rest).length = host.maxDepth
  · rw [if_pos (Nat.le_of_eq hfull.symm)]
    exact ⟨⟨fun _ => hfull, fun _ => rfl⟩, fun hne => absurd hfull hne⟩
  · rw [if_neg (Nat.not_le.mpr (Nat.lt_of_le_of_ne hdepth hfull))]
    exact ⟨⟨nofun, fun heq => absurd heq hfull⟩, fun _ => ⟨callee, rfl⟩⟩

end

namespace Recursion

/-!
A class whose method calls itself, on a host that allows one frame.
-/

/-- `invokestatic A.m; return` -/
def file : List UInt8 :=
  Sample.file "A" (some rootName) [.utf8 "m", .nameAndType 8 7, .methodRef 2 9]
    [⟨0x0009, 8, 7, [.code 5 ⟨0, 0, [0xB8, 0, 10, 0xB1], []⟩ []]⟩]

def host : Host :=
  { Sample.host [("A", file)] with maxDepth := 1 }

def machine : Machine := endOf ((Request.load "A").run host 8) Machine.empty

def started : Option (Method × Thread) := do
  let c ← machine.class? "A"
  let method ← c.method? "m" "()V"
  match Thread.pushFrame host method [] ⟨machine, [], none⟩ with
  | .ok _ t => some (method, t)
  | .error _ _ => none

def called (t : Thread) : Option (Frame × Method × Activation) :=
  match t.frames with
  | [f] =>
      match Exec.step (host.load 8) host.tracing ⟨f, t.machine⟩ with
      | .ok (.call method) a => some (f, method, a)
      | _ => none
  | _ => none

theorem called_facts :
    TypedHeap.ended ((Request.load "A").run host 8 Machine.empty) = true ∧
      (started.bind fun (method, t) => (called t).map fun (_, callee, _) =>
        (method.isNative, method.isAbstract, method.argumentSlots, callee.isNative,
          callee.isAbstract, callee.argumentSlots)) =
        some (false, false, 0, false, false, 0) := by
  decide +kernel

theorem eq_of_started {method : Method} {t : Thread} (h : started = some (method, t)) :
    machine.HasMethod method ∧
      Thread.pushFrame host method (OperandStack.ofValues []).toList ⟨machine, [], none⟩ =
        .ok () t := by
  unfold started at h
  rcases Option.bind_eq_some_iff.mp h with ⟨c, hc, h⟩
  rcases Option.bind_eq_some_iff.mp h with ⟨found, hmethod, h⟩
  have hused : host.Used machine :=
    .request (.load "A") 8 .empty trivial (TypedHeap.finishes_of_ended called_facts.1)
  have hknown : machine.HasClass c := by
    rw [← class?_name hc] at hc
    exact hc
  split at h
  next hpush =>
      cases h
      exact ⟨(hused.founded Native.library_keeps).closed.method hknown hmethod, hpush⟩
  next => cases h

theorem eq_of_called {t : Thread} {f : Frame} {method : Method} {a : Activation}
    (h : called t = some (f, method, a)) :
    t.frames = [f] ∧
      Exec.step (host.load 8) host.tracing ⟨f, t.machine⟩ = .ok (.call method) a := by
  unfold called at h
  split at h
  next hframes =>
      split at h
      next hcall =>
          cases h
          exact ⟨hframes, hcall⟩
      next => cases h
  next => cases h

/-- There is no room for a second frame. -/
theorem second_frame_refused :
    ∃ f r m method a, host.Underway 8 (.step [f] r) m ∧
      Exec.step (host.load 8) host.tracing ⟨f, m⟩ = .ok (.call method) a ∧
        method.isNative = false ∧ method.isAbstract = false ∧
          method.argumentSlots ≤ a.frame.stack.size ∧
            Thread.step host (host.load 8) 0 ⟨m, [f], r⟩ =
              .error (.fault (.stackOverflow 1))
                ⟨a.machine, [a.frame.less method.argumentSlots], r⟩ := by
  rcases Option.bind_eq_some_iff.mp called_facts.2 with ⟨⟨method, t⟩, hstarted, h⟩
  rcases Option.map_eq_some_iff.mp h with ⟨⟨f, callee, a⟩, hcalled, hnames⟩
  simp only [Prod.mk.injEq] at hnames
  rcases hnames with ⟨hnative, habstract, hsize, hnative', habstract', hsize'⟩
  rcases eq_of_started hstarted with ⟨hmethod, hpush⟩
  rcases eq_of_called hcalled with ⟨hframes, hcall⟩
  have hused : host.Used machine :=
    .request (.load "A") 8 .empty trivial (TypedHeap.finishes_of_ended called_facts.1)
  have hunderway : host.Underway 8 (.step t.frames t.result) t.machine :=
    .step (.run 8 method [] hused hmethod) (.enter ⟨hnative, habstract, hsize.symm⟩ hpush)
      (hframes ▸ List.cons_ne_nil f [])
  rw [hframes] at hunderway
  have henough : callee.argumentSlots ≤ a.frame.stack.size := by
    rw [hsize']
    exact Nat.zero_le _
  have hstep := (hunderway.step_confined.2.2.1 Native.library_keeps 0 hcall hnative'
    habstract' henough).1.mpr rfl
  exact ⟨f, t.result, t.machine, callee, a, hunderway, hcall, hnative', habstract', henough, hstep⟩

end Recursion

end Bytecode
