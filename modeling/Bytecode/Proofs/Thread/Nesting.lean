import Bytecode.Proofs.Thread.Equations

/-!
# Calls on top of other frames

A call that runs to its end on a stack of its own runs to the same end on top of any other frames:
it leaves them as they were, but for its result on the stack of the frame below.  The only thing
that can go otherwise is that the stack gets too deep.
-/

namespace Bytecode

variable {α : Type}

namespace Thread

/-!
# Runs
-/

/-- The run on the frames above `base` comes from the first thread to the second. -/
inductive Reaches (host : Host) (load : Loader) (base : Nat) : Thread → Thread → Prop where
  | refl (t : Thread) : Reaches host load base t t
  | next {t u v : Thread} (hmore : t.isDone base = false)
      (hstep : step host load base t = .ok () u) (hrest : Reaches host load base u v) :
      Reaches host load base t v

/-- The run on the frames above `base` comes to a call for which the stack is too deep. -/
def Overflows (host : Host) (load : Loader) (base : Nat) (t : Thread) : Prop :=
  ∃ u v, Reaches host load base t u ∧ u.isDone base = false ∧
    step host load base u = .error (.fault (.stackOverflow host.maxDepth)) v

theorem Overflows.next {host : Host} {load : Loader} {base : Nat} {t u : Thread}
    (hmore : t.isDone base = false) (hstep : step host load base t = .ok () u)
    (h : Overflows host load base u) : Overflows host load base t := by
  rcases h with ⟨v, w, hreach, hmore', hdeep⟩
  exact ⟨v, w, .next hmore hstep hreach, hmore', hdeep⟩

/-!
# Threads on top of other frames
-/

/-- The thread `t` on top of the frames `caller :: rest`: when it has no frame left, the caller has
its result. -/
def atop (t : Thread) (caller : Frame) (rest : List Frame) (pending : Option Value) : Thread :=
  match t.frames with
  | [] => ⟨t.machine, { caller with stack := caller.stack.receive t.result } :: rest, pending⟩
  | f :: own => ⟨t.machine, f :: own ++ caller :: rest, pending⟩

/-- How the same step ends on top of other frames when it ends in `t'` without them. -/
def Carried (host : Host) (caller : Frame) (rest : List Frame) (pending : Option Value)
    (t' : Thread) (outcome : EStateM.Result Halt Thread Unit) : Prop :=
  outcome = .ok () (t'.atop caller rest pending) ∨
    ∃ u, outcome = .error (.fault (.stackOverflow host.maxDepth)) u

section Nesting

variable {host : Host} {load : Loader} {t t' : Thread}
variable (caller : Frame) (rest : List Frame) (pending : Option Value)

theorem onFrame_atop {x : Exec α} {a : α} (hown : t.frames ≠ []) (h : onFrame x t = .ok a t') :
    t'.frames ≠ [] ∧
      onFrame x (t.atop caller rest pending) = .ok a (t'.atop caller rest pending) := by
  rcases t with ⟨m, frames, r⟩
  cases frames with
  | nil => exact absurd rfl hown
  | cons f own =>
      rw [onFrame_cons] at h
      simp only [atop, List.cons_append, onFrame_cons]
      cases hx : x ⟨f, m⟩ with
      | error e w =>
          rw [hx] at h
          cases h
      | ok b w =>
          rw [hx] at h
          cases h
          exact ⟨List.cons_ne_nil _ _, rfl⟩

theorem pushFrame_atop {method : Method} {arguments : List Slot} (hown : t.frames ≠ [])
    (h : pushFrame host method arguments t = .ok () t') :
    Carried host caller rest pending t'
      (pushFrame host method arguments (t.atop caller rest pending)) := by
  rcases t with ⟨m, frames, r⟩
  cases frames with
  | nil => exact absurd rfl hown
  | cons f own =>
      simp only [atop]
      rw [pushFrame_apply] at h ⊢
      simp only at h ⊢
      cases hframe : frameFor m method arguments with
      | error f =>
          rw [hframe] at h
          cases h
      | ok frame =>
          rw [hframe] at h
          simp only at h ⊢
          split at h
          next => cases h
          next =>
              cases h
              split
              next => exact .inr ⟨_, rfl⟩
              next => exact .inl rfl

theorem dispatch_atop {method : Method} (hown : t.frames ≠ [])
    (h : dispatch host load method t = .ok () t') :
    Carried host caller rest pending t'
      (dispatch host load method (t.atop caller rest pending)) := by
  unfold dispatch at h ⊢
  split at h
  next hnative =>
      rw [if_pos hnative]
      exact .inl (onFrame_atop caller rest pending hown h).2
  next hnative =>
      rw [if_neg hnative]
      split at h
      next habstract =>
          rw [if_pos habstract]
          exact .inl (onFrame_atop caller rest pending hown h).2
      next habstract =>
          rw [if_neg habstract]
          rcases bind_eq_ok h with ⟨arguments, t₁, hpop, hpush⟩
          rcases onFrame_atop caller rest pending hown hpop with ⟨hown₁, hpop'⟩
          rw [bind_of_ok hpop']
          exact pushFrame_atop caller rest pending hown₁ hpush

theorem doReturn_atop {base : Nat} {value : Option Value} (hown : t.frames ≠ [])
    (hbase : base ≤ rest.length) (h : doReturn 0 value t = .ok () t') :
    doReturn base value (t.atop caller rest pending) = .ok () (t'.atop caller rest pending) := by
  rcases t with ⟨m, frames, r⟩
  cases frames with
  | nil => exact absurd rfl hown
  | cons f own =>
      rw [doReturn_cons] at h
      have hlast : (own ++ caller :: rest).length ≠ base := by
        simp only [List.length_append, List.length_cons]
        omega
      simp only [atop, List.cons_append, doReturn_cons]
      rw [if_neg hlast]
      cases own with
      | nil =>
          cases h
          cases value with
          | none => rfl
          | some v => exact onFrame_pushValue v m caller rest pending
      | cons g own =>
          rw [if_neg (by simp)] at h
          cases value with
          | none =>
              cases h
              rfl
          | some v => exact (onFrame_atop caller rest pending (List.cons_ne_nil g own) h).2

theorem unwind_atop {base exception : Nat} (hbase : base ≤ rest.length) (own : List Frame)
    (h : unwind load 0 exception own t = .ok () t') (u : Thread) (hmachine : u.machine = t.machine)
    (hresult : u.result = pending) :
    unwind load base exception (own ++ caller :: rest) u =
      .ok () (t'.atop caller rest pending) := by
  -- the search goes through the frames of the run and does not come to the others
  induction own generalizing t u with
  | nil => cases h
  | cons f own ih =>
      have hdeep : ¬ (own ++ caller :: rest).length < base := by
        simp only [List.length_append, List.length_cons]
        omega
      rw [unwind_cons, if_neg (Nat.not_lt_zero _)] at h
      rw [List.cons_append, unwind_cons, if_neg hdeep, hmachine]
      cases hfirst : firstHandler load f exception f.method.handlers t.machine with
      | error e m =>
          rw [hfirst] at h
          cases h
      | ok found m =>
          rw [hfirst] at h
          cases found with
          | some target =>
              cases h
              simp only [atop, hresult, List.cons_append]
          | none => exact ih h _ rfl hresult

/-- One step of a call does the same on top of other frames, unless the stack is full there. -/
theorem step_atop {base : Nat} (hown : t.frames ≠ []) (hbase : base ≤ rest.length)
    (h : step host load 0 t = .ok () t') :
    Carried host caller rest pending t' (step host load base (t.atop caller rest pending)) := by
  rcases bind_eq_ok h with ⟨effect, t₁, hexec, happly⟩
  rcases onFrame_atop caller rest pending hown hexec with ⟨hown₁, hexec'⟩
  unfold step
  rw [bind_of_ok hexec']
  cases effect with
  | next =>
      cases happly
      exact .inl rfl
  | call method => exact dispatch_atop caller rest pending hown₁ happly
  | ret value => exact .inl (doReturn_atop caller rest pending hown₁ hbase happly)
  | throw exception =>
      refine .inl ?_
      have hframes : (t₁.atop caller rest pending).frames = t₁.frames ++ caller :: rest := by
        unfold atop
        split
        next hnil => exact absurd hnil hown₁
        next hcons => rw [hcons]
      show unwind load base exception (t₁.atop caller rest pending).frames _ = _
      rw [hframes]
      refine unwind_atop caller rest pending hbase t₁.frames happly _ ?_ ?_
      · unfold atop
        split <;> rfl
      · unfold atop
        split <;> rfl

theorem isDone_atop {base : Nat} (hbase : base ≤ rest.length) :
    (t.atop caller rest pending).isDone base = false := by
  have hlong : base < (t.atop caller rest pending).frames.length := by
    unfold atop
    split <;> simp only [List.length_append, List.length_cons] <;> omega
  simp only [isDone, List.isEmpty_eq_false_iff, ne_eq, List.drop_eq_nil_iff]
  omega

/-- A call that runs to its end does so on top of other frames, unless the stack gets full. -/
theorem steps_atop {base fuel : Nat} (hown : t.frames ≠ []) (hbase : base ≤ rest.length)
    (h : steps host load 0 fuel t = .ok () t') :
    t'.frames = [] ∧
      (Overflows host load base (t.atop caller rest pending) ∨
        Reaches host load base (t.atop caller rest pending) (t'.atop caller rest pending)) := by
  induction fuel generalizing t with
  | zero => cases h
  | succ fuel ih =>
      have hmore : t.isDone 0 = false := by
        simpa [isDone] using hown
      have hmore' := isDone_atop (t := t) caller rest pending hbase
      rw [steps_succ, if_neg (by simp [hmore])] at h
      rcases bind_eq_ok h with ⟨⟨⟩, t₁, hstep, hrun⟩
      have hcarried := step_atop caller rest pending hown hbase hstep
      -- a step that leaves no frame is the one that returns to the caller
      by_cases hown₁ : t₁.frames = []
      · have hend : t' = t₁ := by
          cases fuel with
          | zero => cases hrun
          | succ fuel =>
              rw [steps_succ, if_pos (by simp [isDone, hown₁])] at hrun
              cases hrun
              rfl
        subst hend
        refine ⟨hown₁, ?_⟩
        rcases hcarried with hok | ⟨u, hdeep⟩
        · exact .inr (.next hmore' hok (.refl _))
        · exact .inl ⟨_, u, .refl _, hmore', hdeep⟩
      · rcases ih hown₁ hrun with ⟨hend, hafter⟩
        refine ⟨hend, ?_⟩
        rcases hcarried with hok | ⟨u, hdeep⟩
        · rcases hafter with hdeep | hreach
          · exact .inl (hdeep.next hmore' hok)
          · exact .inr (.next hmore' hok hreach)
        · exact .inl ⟨_, u, .refl _, hmore', hdeep⟩

end Nesting

/-!
# Calls from code and calls from the host
-/

/-- A call that the host can run to its end on a stack of its own ends in the same way when code
makes it: the frames are as before the call, except that the result stands in the place of the
arguments, and the machine is the same.  The stack may be too deep for it at once or later on. -/
theorem dispatch_agrees_with_invoke {host : Host} {fuel base : Nat} {m m' : Machine}
    {method : Method} {arguments : List Value} {r : Option Value} {caller : Frame}
    {rest : List Frame} {below : OperandStack} (pending : Option Value)
    (hnative : method.isNative = false) (habstract : method.isAbstract = false)
    (hbase : base < (caller :: rest).length)
    (hstack : caller.stack = arguments.foldl OperandStack.append below)
    (h : host.invoke fuel method arguments m = .ok r m') :
    (∃ u, dispatch host (host.load fuel) method ⟨m, caller :: rest, pending⟩ =
        .error (.fault (.stackOverflow host.maxDepth)) u) ∨
      ∃ t, dispatch host (host.load fuel) method ⟨m, caller :: rest, pending⟩ = .ok () t ∧
        (Overflows host (host.load fuel) base t ∨
          Reaches host (host.load fuel) base t
            ⟨m', { caller with stack := below.receive r } :: rest, pending⟩) := by
  rcases invoke_eq_ok hnative habstract h with ⟨hsize, frame, t', hframe, hsteps, rfl, rfl⟩
  -- the arguments are on top of the stack of the caller, which keeps what is below them
  have hpop : onFrame (OperandStack.popSlots method.argumentSlots : StackM (List Slot))
      ⟨m, caller :: rest, pending⟩ =
      .ok (OperandStack.ofValues arguments).toList
        ⟨m, { caller with stack := below } :: rest, pending⟩ := by
    rw [onFrame_cons, onStack_apply, hstack, ← hsize, OperandStack.popSlots_foldl_append]
  have hdispatch : dispatch host (host.load fuel) method ⟨m, caller :: rest, pending⟩ =
      pushFrame host method (OperandStack.ofValues arguments).toList
        ⟨m, { caller with stack := below } :: rest, pending⟩ := by
    unfold dispatch
    rw [if_neg (by simp [hnative]), if_neg (by simp [habstract]), bind_of_ok hpop]
  rw [hdispatch, pushFrame_apply, hframe]
  simp only
  split
  next => exact .inl ⟨_, rfl⟩
  next =>
      refine .inr ⟨_, rfl, ?_⟩
      have hbase' : base ≤ rest.length := by
        simp only [List.length_cons] at hbase
        omega
      -- each step of the run on its own is repeated on top of the caller
      rcases steps_atop { caller with stack := below } rest pending (List.cons_ne_nil _ _) hbase'
        hsteps with ⟨hend, hrun⟩
      have hatop : t'.atop { caller with stack := below } rest pending =
          ⟨t'.machine, { caller with stack := below.receive t'.result } :: rest, pending⟩ := by
        simp only [atop, hend]
      rw [hatop] at hrun
      exact hrun

namespace Catching

/-!
A class whose method throws an object, catches it and calls another method with its argument.
-/

def pool : Pool :=
  ⟨#[.unusable, .methodRef 2 3, .classRef 4, .nameAndType 5 6, .utf8 "A", .utf8 "double",
    .utf8 "(I)I"]⟩

def method (name : String) (code : Array UInt8) (handlers : List Handler) : Method :=
  ⟨"A", name, "(I)I", .ofWord 0x0009, ⟨[.int], .int⟩, 2, 1, code, handlers, rfl⟩

/-- `new A; athrow`, then at the handler `pop; iload_0; invokestatic double; ireturn`. -/
def throwing : Method :=
  method "throwing" #[0xBB, 0, 2, 0xBF, 0x57, 0x1A, 0xB8, 0, 1, 0xAC] [⟨0, 4, 4, 0⟩]

def double : Method :=
  method "double" #[0x1A, 0x1A, 0x60, 0xAC] []

def cls : Class :=
  .mk ⟨"A", .ofWord 0x0021, [], [], [throwing, double]⟩ none []

def machine : Machine :=
  { Machine.empty with
    classes := [{ Entry.ofClass cls with state := .initialized }], pools := [("A", pool)] }

/-- The machine after the call: one object was made, and one class reference was followed. -/
def machineAfter : Machine :=
  { machine with
    resolved := [(("A", 2), cls)], objects := #[.ofInstance (.ofClass cls)] }

def host : Host :=
  ⟨ClassPath.ofRows [], [], 8, false⟩

def caller (stack : OperandStack) : Frame :=
  { Frame.enter double cls ⟨"A", pool⟩ [.int 0] with stack }

/-- The frame of a method under way. -/
def midway (method : Method) (current pc : Nat) (slots : List Slot) : Frame :=
  { Frame.enter method cls ⟨"A", pool⟩ [.int 21] with stack := ⟨slots⟩, current, pc }

theorem throwing_runs :
    steps host (host.load 12) 0 12 ⟨machine, [midway throwing 0 0 []], none⟩ =
      .ok () ⟨machineAfter, [], some (.int 42)⟩ := by
  -- `new` makes the object, `athrow` throws it to the handler, which drops it
  refine steps_next (u := ⟨machineAfter, [midway throwing 0 3 [.reference (some 0)]], none⟩)
    rfl rfl ?_
  refine steps_next (u := ⟨machineAfter, [midway throwing 3 4 [.reference (some 0)]], none⟩)
    rfl rfl ?_
  refine steps_next (u := ⟨machineAfter, [midway throwing 4 5 []], none⟩) rfl rfl ?_
  refine steps_next (u := ⟨machineAfter, [midway throwing 5 6 [.int 21]], none⟩) rfl rfl ?_
  -- the called method works in a frame of its own
  refine steps_next (u := ⟨machineAfter, [midway double 0 0 [], midway throwing 6 9 []], none⟩)
    rfl rfl ?_
  refine steps_next
    (u := ⟨machineAfter, [midway double 0 1 [.int 21], midway throwing 6 9 []], none⟩) rfl rfl ?_
  refine steps_next
    (u := ⟨machineAfter, [midway double 1 2 [.int 21, .int 21], midway throwing 6 9 []], none⟩)
    rfl rfl ?_
  refine steps_next
    (u := ⟨machineAfter, [midway double 2 3 [.int 42], midway throwing 6 9 []], none⟩) rfl rfl ?_
  refine steps_next (u := ⟨machineAfter, [midway throwing 6 9 [.int 42]], none⟩) rfl rfl ?_
  exact steps_next (u := ⟨machineAfter, [], some (.int 42)⟩) rfl rfl rfl

theorem throwing_call_agrees :
    host.invoke 12 throwing [.int 21] machine = .ok (some (.int 42)) machineAfter ∧
      ((∃ u, dispatch host (host.load 12) throwing
            ⟨machine, [caller ⟨[.int 21, .int 7]⟩, caller .empty], none⟩ =
          .error (.fault (.stackOverflow 8)) u) ∨
        ∃ t, dispatch host (host.load 12) throwing
            ⟨machine, [caller ⟨[.int 21, .int 7]⟩, caller .empty], none⟩ = .ok () t ∧
          (Overflows host (host.load 12) 1 t ∨
            Reaches host (host.load 12) 1 t
              ⟨machineAfter, [caller ⟨[.int 42, .int 7]⟩, caller .empty], none⟩)) := by
  have hrun : host.invoke 12 throwing [.int 21] machine = .ok (some (.int 42)) machineAfter :=
    invoke_of_steps rfl rfl rfl (by decide) rfl throwing_runs
  exact ⟨hrun, dispatch_agrees_with_invoke none rfl rfl (by decide) rfl hrun⟩

end Catching

end Thread
end Bytecode
