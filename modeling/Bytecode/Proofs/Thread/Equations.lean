import Bytecode.Proofs.Request

/-!
# Equations of threads

What each operation of a thread does to the machine, the frames and the result, said once for all
later proofs.  Operations on the innermost frame never see the frames below it.
-/

namespace Bytecode

variable {α : Type}

namespace OperandStack

theorem foldl_append_slots (values : List Value) (s : OperandStack) :
    (values.foldl append s).slots = (ofValues values).slots ++ s.slots := by
  -- the accumulator starts anywhere, and what lies at its bottom stays there
  have hgeneral (values : List Value) (s b : OperandStack) :
      (values.foldl append ⟨s.slots ++ b.slots⟩).slots =
        (values.foldl append s).slots ++ b.slots := by
    induction values generalizing s with
    | nil => rfl
    | cons value values ih =>
        have happend :
            append ⟨s.slots ++ b.slots⟩ value = ⟨(append s value).slots ++ b.slots⟩ := by
          simp only [append, List.append_assoc]
        rw [List.foldl_cons, List.foldl_cons, happend, ih]
  exact hgeneral values empty s

theorem popSlots_foldl_append (values : List Value) (s : OperandStack) :
    popSlots (ofValues values).size (values.foldl append s) = .ok (ofValues values).toList s := by
  have hslots := foldl_append_slots values s
  have henough : ¬ (values.foldl append s).size < (ofValues values).size := by
    simp only [size, hslots, List.length_append]
    omega
  unfold popSlots
  rw [get_bind]
  simp only [henough, if_false]
  show EStateM.Result.ok _ _ = _
  simp only [hslots, size, List.take_left', List.drop_left', toList]

/-- The stack with which a handler starts is one that is cleared and gets the exception. -/
theorem clear_pushValue (value : Value) (s : OperandStack) :
    (do clear; pushValue value : StackM Unit) s = .ok () (empty.append value) := by
  cases value <;> rfl

def receive (s : OperandStack) : Option Value → OperandStack
  | some value => s.append value
  | none => s

end OperandStack

namespace Thread

/-!
# Work on the innermost frame and on the machine
-/

theorem onFrame_cons (x : Exec α) (m : Machine) (f : Frame) (rest : List Frame)
    (r : Option Value) :
    onFrame x ⟨m, f :: rest, r⟩ =
      match x ⟨f, m⟩ with
      | .ok a w => .ok a ⟨w.machine, w.frame :: rest, r⟩
      | .error e w => .error e ⟨w.machine, w.frame :: rest, r⟩ := by
  cases hx : x ⟨f, m⟩ <;> simp only [onFrame, hx]

theorem onStack_apply (x : StackM α) (f : Frame) (m : Machine) :
    (liftM x : Exec α) ⟨f, m⟩ =
      match x f.stack with
      | .ok a stack => .ok a ⟨{ f with stack }, m⟩
      | .error e stack => .error (.fault e) ⟨{ f with stack }, m⟩ := by
  show Activation.onStack x ⟨f, m⟩ = _
  cases hx : x f.stack <;> simp only [Activation.onStack, hx]

theorem onMachine_apply (x : MachineM α) (t : Thread) :
    (liftM x : ThreadM α) t =
      match x t.machine with
      | .ok a m => .ok a { t with machine := m }
      | .error e m => .error e { t with machine := m } := by
  show onMachine x t = _
  cases hx : x t.machine <;> simp only [onMachine, hx]

theorem onFrame_pushValue (value : Value) (m : Machine) (f : Frame) (rest : List Frame)
    (r : Option Value) :
    onFrame (OperandStack.pushValue value : StackM Unit) ⟨m, f :: rest, r⟩ =
      .ok () ⟨m, { f with stack := f.stack.append value } :: rest, r⟩ := by
  cases value <;> rfl

/-!
# Calls, returns and exceptions
-/

theorem pushFrame_apply (host : Host) (method : Method) (arguments : List Slot) (t : Thread) :
    pushFrame host method arguments t =
      match frameFor t.machine method arguments with
      | .error f => .error (.fault f) t
      | .ok frame =>
          if host.maxDepth ≤ t.frames.length then
            .error (.fault (.stackOverflow host.maxDepth)) t
          else
            .ok () { t with frames := frame :: t.frames } := by
  unfold pushFrame
  rw [get_bind]
  cases frameFor t.machine method arguments with
  | error f => rfl
  | ok frame =>
      by_cases hfull : host.maxDepth ≤ t.frames.length
      · simp only [hfull, if_true]
        rfl
      · simp only [hfull, if_false]
        rfl

theorem frames_of_pushFrame {host : Host} {method : Method} {arguments : List Slot}
    {t t' : Thread} (h : pushFrame host method arguments t = .ok () t') : t'.frames ≠ [] := by
  rw [pushFrame_apply] at h
  split at h
  next => cases h
  next frame _ =>
      split at h
      · cases h
      · cases h
        exact List.cons_ne_nil frame t.frames

theorem doReturn_cons (base : Nat) (value : Option Value) (m : Machine) (f : Frame)
    (rest : List Frame) (r : Option Value) :
    doReturn base value ⟨m, f :: rest, r⟩ =
      if rest.length = base then .ok () ⟨m, rest, value⟩
      else
        match value with
        | some value => onFrame (OperandStack.pushValue value : StackM Unit) ⟨m, rest, r⟩
        | none => .ok () ⟨m, rest, r⟩ := by
  unfold doReturn
  rw [get_bind]
  by_cases hbase : rest.length = base
  · simp only [hbase, if_true]
    rfl
  · simp only [hbase, if_false]
    cases value <;> rfl

theorem unwind_cons (load : Loader) (base exception : Nat) (f : Frame) (rest : List Frame)
    (t : Thread) :
    unwind load base exception (f :: rest) t =
      if rest.length < base then
        .error (.fault (uncaught t.machine exception)) { t with frames := f :: rest }
      else
        match firstHandler load f exception f.method.handlers t.machine with
        | .error e m => .error e ⟨m, f :: rest, t.result⟩
        | .ok (some target) m =>
            .ok () ⟨m, { f with stack := OperandStack.empty.append (.reference (some exception)),
                                pc := target } :: rest, t.result⟩
        | .ok none m => unwind load base exception rest ⟨m, f :: rest, t.result⟩ := by
  rw [unwind]
  by_cases hbase : rest.length < base
  · simp only [hbase, if_true]
    rfl
  · simp only [hbase, if_false]
    rw [modify_bind]
    have hlift := onMachine_apply (firstHandler load f exception f.method.handlers)
      { t with frames := f :: rest }
    cases hfirst : firstHandler load f exception f.method.handlers t.machine with
    | error e m =>
        rw [hfirst] at hlift
        rw [bind_of_error hlift]
    | ok found m =>
        rw [hfirst] at hlift
        rw [bind_of_ok hlift]
        cases found <;> rfl

/-!
# Runs
-/

theorem steps_succ (host : Host) (load : Loader) (base fuel : Nat) (t : Thread) :
    steps host load base (fuel + 1) t =
      if t.isDone base then .ok () t
      else (step host load base >>= fun _ => steps host load base fuel) t := by
  rw [steps, get_bind]
  by_cases hdone : t.isDone base = true
  · rw [if_pos hdone, if_pos hdone]
    rfl
  · rw [if_neg hdone, if_neg hdone]

theorem steps_next {host : Host} {load : Loader} {base fuel : Nat} {t u v : Thread}
    (hmore : t.isDone base = false) (hstep : step host load base t = .ok () u)
    (hrest : steps host load base fuel u = .ok () v) :
    steps host load base (fuel + 1) t = .ok () v := by
  rw [steps_succ, if_neg (by simp [hmore]), bind_of_ok hstep, hrest]

theorem recordFault_eq (t : Thread) (base : Nat) (f : Fault) :
    ∃ log, t.recordFault base f = { t.machine with log } := by
  have hlines (frames : List Frame) (m : Machine) :
      ∃ log, frames.foldl (fun m frame => m.record .error frame.traceLine) m = { m with log } := by
    induction frames generalizing m with
    | nil => exact ⟨m.log, rfl⟩
    | cons frame frames ih =>
        obtain ⟨log, hlog⟩ := ih (m.record .error frame.traceLine)
        exact ⟨log, hlog⟩
  obtain ⟨log, hlog⟩ := hlines (t.owned base) (t.machine.record .error f.message)
  exact ⟨log, hlog⟩

theorem invoke_eq_ok {host : Host} {load : Loader} {fuel : Nat} {method : Method}
    {arguments : List Value} {m m' : Machine} {r : Option Value}
    (hnative : method.isNative = false) (habstract : method.isAbstract = false)
    (h : invoke host load fuel method arguments m = .ok r m') :
    (OperandStack.ofValues arguments).size = method.argumentSlots ∧
      ∃ frame t,
        frameFor m method (OperandStack.ofValues arguments).toList = .ok frame ∧
          steps host load 0 fuel ⟨m, [frame], none⟩ = .ok () t ∧ t.result = r ∧ t.machine = m' := by
  unfold invoke at h
  by_cases hsize : (OperandStack.ofValues arguments).size = method.argumentSlots
  · simp only [hsize, ne_eq, not_true, if_false, hnative, habstract, Bool.false_eq_true] at h
    unfold onFresh at h
    split at h
    next r' t hbody =>
        cases h
        -- a frame is pushed, the run ends, and its result is taken
        rcases bind_eq_ok hbody with ⟨⟨⟩, t₀, hpush, hrest⟩
        rcases bind_eq_ok hrest with ⟨⟨⟩, t₁, hrun, hresult⟩
        cases hresult
        rw [pushFrame_apply] at hpush
        split at hpush
        next => cases hpush
        next frame hframe =>
            split at hpush
            next => cases hpush
            next =>
                cases hpush
                refine ⟨hsize, frame, t, hframe, ?_, rfl, rfl⟩
                unfold run at hrun
                split at hrun
                next hsteps =>
                    cases hrun
                    exact hsteps
                next => cases hrun
                next => cases hrun
    next => cases h
  · simp only [ne_eq, hsize, not_false_eq_true, if_true] at h
    cases h

theorem invoke_of_steps {host : Host} {load : Loader} {fuel : Nat} {method : Method}
    {arguments : List Value} {m : Machine} {frame : Frame} {t : Thread}
    (hnative : method.isNative = false) (habstract : method.isAbstract = false)
    (hsize : (OperandStack.ofValues arguments).size = method.argumentSlots)
    (hdepth : 0 < host.maxDepth)
    (hframe : frameFor m method (OperandStack.ofValues arguments).toList = .ok frame)
    (hsteps : steps host load 0 fuel ⟨m, [frame], none⟩ = .ok () t) :
    invoke host load fuel method arguments m = .ok t.result t.machine := by
  have hpush : pushFrame host method (OperandStack.ofValues arguments).toList ⟨m, [], none⟩ =
      .ok () ⟨m, [frame], none⟩ := by
    simp only [pushFrame_apply, hframe, List.length_nil, Nat.not_le.mpr hdepth, if_false]
  have hrun : run host load fuel 0 ⟨m, [frame], none⟩ = .ok () t := by
    simp only [run, hsteps]
  unfold invoke
  simp only [hsize, ne_eq, not_true, if_false, hnative, habstract, Bool.false_eq_true]
  unfold onFresh
  rw [bind_of_ok hpush, bind_of_ok hrun]
  rfl

end Thread
end Bytecode
