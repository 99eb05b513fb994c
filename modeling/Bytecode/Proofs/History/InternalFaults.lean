import Bytecode.Proofs.Loading.Circularity
import Bytecode.Proofs.Loading.Founded

/-!
# Internal faults

Some faults would report that the machine has lost track of itself: a class that is gone, a constant
table or a frame that is missing, a class without a superclass.  No request ends with one of them,
between requests or while others are under way, unless the class path itself gives it.  Where code
runs, the root class is never found missing, and a class that is about to be registered is always
new.
-/

namespace Bytecode

open Machine

section

variable {α : Type} {path : ClassPath} {rooted : Prop} {host : Host} {fuel : Nat} {m m' : Machine}

/-!
# Surroundings
-/

def Query.Fits (m : Machine) : Query → Prop
  | load _ => True
  | run method _ => m.HasMethod method

/-- The surroundings keep machines founded, and nothing tells them apart where they may be asked. -/
structure Serves (path : ClassPath) (o₁ o₂ : Oracle) : Prop where
  load : ∀ rooted, (founded path rooted).Loaders o₁.load o₂.load
  run : ∀ method arguments, (founded path True).Alike ((founded path True).Calls method)
    (fun _ _ => True) (o₁ (.run method arguments)) (o₂ (.run method arguments))
  prompt : Prompt o₁.load

theorem founded_called {method : Method} {Q : α → Machine → Prop} {x y : MachineM α}
    (h : (founded path True).Alike ((founded path True).Calls method) Q x y) :
    (founded path rooted).Alike ((founded path rooted).Calls method) Q x y := by
  intro m hinv hcalls
  obtain ⟨c, hc, -⟩ := hcalls trivial
  obtain ⟨heq, hends⟩ := h m (founded_rooted hinv.1 hc) hcalls
  refine ⟨heq, hends.restate (fun m' hinv' hrel => ?_) fun _ hf => founded_err hf⟩
  exact ⟨⟨hinv'.1, fun _ => hinv'.2 trivial⟩, hrel⟩

namespace Serves

variable {o o₁ o₂ other : Oracle}

theorem oracles (h : Serves path o₁ o₂) (rooted : Prop) : (founded path rooted).Oracles o₁ o₂ :=
  ⟨h.load rooted, fun method arguments => founded_called (h.run method arguments)⟩

theorem loadWith (h : Serves path o₁ o₂) (rooted : Prop) :
    (founded path rooted).Loaders (Machine.loadWith path o₁.load o₁.initializer)
      (Machine.loadWith path o₂.load o₂.initializer) :=
  loadWith_founded (h.load rooted) (h.load True) h.prompt fun method =>
    (h.run method []).bind fun _ => .pure fun _ _ _ => trivial

/-- Surroundings may differ where they are never asked, and may leave questions open. -/
theorem limited (h : Serves path o o) {known : Set (Query × Machine)} {q : Query}
    (hother : ∀ q' m', (q', m') ≠ (q, m) → other q' m' = o.limited known q' m')
    (hnever : ¬ (m.Founded path ∧ q.Fits m)) : Serves path (o.limited known) other := by
  have hsame {q' : Query} {m' : Machine} (hm : m'.Founded path) (hq : q'.Fits m') :
      o.limited known q' m' = other q' m' := by
    refine (hother q' m' ?_).symm
    intro heq
    cases heq
    exact hnever ⟨hm, hq⟩
  have hends {C : Charter} (q' : Query) {Q : q'.Reply → Machine → Prop} {m' : Machine}
      (hm : C.Ends Q m' (o q' m')) : C.Ends Q m' (o.limited known q' m') := by
    unfold Oracle.limited
    split
    · exact hm
    · trivial
  refine ⟨fun rooted name m' hinv _ => ?_, fun method arguments m' hinv hcalls => ?_, ?_⟩
  · exact ⟨hsame hinv.1 trivial, hends (.load name) (h.load rooted name m' hinv trivial).2⟩
  · exact ⟨hsame hinv.1 (hcalls trivial),
      hends (.run method arguments) (h.run method arguments m' hinv hcalls).2⟩
  · intro name m' c s harray hs
    unfold Oracle.load Oracle.limited
    split
    · exact h.prompt harray hs
    · exact .inl rfl

end Serves

section

variable (hnatives : ∀ C, host.natives.Keeps C)

include hnatives

/-- The surroundings that a host provides keep machines founded, however deep loads nest. -/
theorem oracle_serves (fuel : Nat) : Serves host.path (host.oracle fuel) (host.oracle fuel) := by
  have hloaded {fuel : Nat}
      (h : ∀ rooted, (founded host.path rooted).Loaders (host.load fuel) (host.load fuel)) :
      Serves host.path (host.oracle fuel) (host.oracle fuel) :=
    ⟨h, fun method arguments =>
      Charter.invoke_alike (hnatives _) (h True) fuel method arguments, host.load_prompt fuel⟩
  induction fuel with
  | zero => exact hloaded fun rooted name m _ _ => ⟨rfl, trivial⟩
  | succ fuel ih => exact hloaded fun rooted => ih.loadWith rooted

end

/-!
# Tasks
-/

def Task.Fits (m : Machine) : Task → Prop
  | request r => r.Fits m
  | load _ => True
  | run method _ => m.HasMethod method
  | step frames _ => frames ≠ [] ∧ ∀ f ∈ frames, Contract.Known f.pool m ∧ m.HasClass f.cls

theorem Query.Fits.task {q : Query} (h : q.Fits m) : q.task.Fits m := by
  cases q with
  | load name => trivial
  | run method arguments => exact h

section

variable (hnatives : ∀ C, host.natives.Keeps C)

include hnatives

theorem task_alike {o₁ o₂ : Oracle} (h : Serves host.path o₁ o₂) (fuel : Nat) (x : Task) :
    (founded host.path False).Alike x.Fits (fun _ _ => True) (x.via host fuel o₁)
      (x.via host fuel o₂) := by
  cases x with
  | request r =>
      exact (Charter.request_alike (h.oracles False) r).mono (fun _ _ hr _ => hr)
        fun _ _ _ hq => hq
  | load name => exact ((h.loadWith False name).same.map _).alike
  | run method arguments =>
      have hrun := Charter.invoke_alike (hnatives _) (h.load False) fuel method arguments
      exact (hrun.mono (fun _ _ hmethod _ => hmethod) fun _ _ _ hq => hq).map _
  | step frames result =>
      rintro m hinv ⟨hframes, hknown⟩
      obtain ⟨heq, hends⟩ := Charter.thread_step_alike (hnatives _) (h.load False) 0
        ⟨m, frames, result⟩ ⟨hinv, fun f hf => ⟨(hknown f hf).1, fun _ => (hknown f hf).2⟩⟩
        fun _ => List.length_pos_iff.mpr hframes
      refine ⟨congrArg (Terms.mapState Thread.machine) heq, ?_⟩
      exact hends.mapState (fun _ hinv' hrel => ⟨hinv'.1, hrel⟩) (fun _ _ _ _ hq => hq)
        fun _ hf => hf

/-- A question comes up in a founded machine, and what it asks to be run belongs to a registered
class. -/
theorem task_asks {x : Task} (hm : m.Founded host.path) (hx : x.Fits m)
    {known : Set (Query × Machine)} {q : Query} (h : x.Asks host fuel m known q m') :
    m'.Founded host.path ∧ q.Fits m' := by
  -- surroundings that differ only where a task may not ask are all the same to it
  by_contra hnever
  obtain ⟨-, other, hother, hdiffer⟩ := h
  have hserves := (oracle_serves hnatives fuel).limited hother hnever
  exact hdiffer (task_alike hnatives hserves fuel x m ⟨hm, False.elim⟩ hx).1.symm

theorem oracle_founded {q : Query} (hm : m.Founded host.path) (hq : q.Fits m)
    (hgoes : ¬ Stops (host.oracle fuel q m)) :
    (lastState (host.oracle fuel q m)).Founded host.path := by
  have hserves := (oracle_serves hnatives fuel).oracles False
  cases q with
  | load name => exact ((hserves.load name m ⟨hm, False.elim⟩ trivial).2.inv hgoes).1
  | run method arguments =>
      exact ((hserves.run method arguments m ⟨hm, False.elim⟩ fun _ => hq).2.inv hgoes).1

end

/-!
# Events
-/

def Event.Fits : Event → Prop
  | asked _ q m => q.Fits m
  | _ => True

def Stage.Founded (path : ClassPath) : Stage → Prop
  | waiting _ q m => m.Founded path ∧ q.Fits m
  | running t => (founded path False).thread.inv t
  | _ => True

/-- At all events of a task the machine is founded. -/
theorem Unfolds.founded (hnatives : ∀ C, host.natives.Keeps C) {x : Task} {stage : Stage}
    {events : List Event} (h : Unfolds host fuel x m stage events) (hm : m.Founded host.path)
    (hx : x.Fits m) :
    (∀ e ∈ events, e.machine.Founded host.path ∧ e.Fits) ∧ stage.Founded host.path := by
  have hstep {t : Thread} (ht : (Bytecode.founded host.path False).thread.inv t)
      (hframes : t.frames ≠ []) : (Task.step t.frames t.result).Fits t.machine :=
    ⟨hframes, fun f hf => ⟨(ht.2 f hf).1, (ht.2 f hf).2 trivial⟩⟩
  -- the stage carries what the next event needs: a question that may be asked, or frames in order
  induction h with
  | start fuel x m => exact ⟨List.forall_mem_nil _, trivial⟩
  | ask _ hasks ih =>
      have hasked := task_asks hnatives hm hx hasks
      exact ⟨List.forall_mem_append.mpr ⟨(ih hm hx).1, List.forall_mem_singleton.mpr hasked⟩,
        hasked⟩
  | answer _ hfuel _ hgoes ih ihinner =>
      obtain ⟨hevents, hwaiting⟩ := ih hm hx
      have hinner := (ihinner hwaiting.1 hwaiting.2.task).1
      have hanswer := oracle_founded hnatives hwaiting.1 hwaiting.2 hgoes
      exact ⟨List.forall_mem_append.mpr ⟨List.forall_mem_append.mpr ⟨hevents, hinner⟩,
        List.forall_mem_singleton.mpr ⟨hanswer, trivial⟩⟩, trivial⟩
  | answering _ hfuel _ ih ihinner =>
      obtain ⟨hevents, hwaiting⟩ := ih hm hx
      exact ⟨List.forall_mem_append.mpr
        ⟨hevents, (ihinner hwaiting.1 hwaiting.2.task).1⟩, trivial⟩
  | @enter fuel method arguments m t htakes hpush =>
      have hpushed := (Charter.pushFrame_alike (C := Bytecode.founded host.path False) host method
        (OperandStack.ofValues arguments).toList ⟨m, [], none⟩ ⟨⟨hm, False.elim⟩, nofun⟩
        fun _ => hx).2
      rw [hpush] at hpushed
      exact ⟨List.forall_mem_nil _, hpushed.1⟩
  | @step fuel x m t t' stage events inner _ hframes _ hrun ih ihinner =>
      obtain ⟨hevents, hrunning⟩ := ih hm hx
      have hinner := (ihinner hrunning.1.1 (hstep hrunning hframes)).1
      have hstepped := (Charter.thread_step_alike (hnatives _)
        ((oracle_serves hnatives fuel).load False) 0 t hrunning
        fun _ => List.length_pos_iff.mpr hframes).2
      have hload : (host.oracle fuel).load = host.load fuel := rfl
      rw [hload, hrun] at hstepped
      exact ⟨List.forall_mem_append.mpr ⟨List.forall_mem_append.mpr ⟨hevents, hinner⟩,
        List.forall_mem_singleton.mpr ⟨hstepped.1.1.1, trivial⟩⟩, hstepped.1⟩
  | stepping _ hframes _ ih ihinner =>
      obtain ⟨hevents, hrunning⟩ := ih hm hx
      exact ⟨List.forall_mem_append.mpr
        ⟨hevents, (ihinner hrunning.1.1 (hstep hrunning hframes)).1⟩, trivial⟩

/-!
# Machines of a host
-/

/-- The machine is one that a host comes to between its requests.  It calls methods of registered
classes only, and the objects that it brings in are of registered classes. -/
inductive Host.Used (host : Host) : Machine → Prop where
  | empty : Used host Machine.empty
  /-- The host changes objects, static fields or output. -/
  | write {m m' : Machine} (h : Used host m) (hwork : Works m m') (hgrounded : m'.Grounded) :
      Used host m'
  | request {m m' : Machine} (r : Request) (fuel : Nat) (h : Used host m) (hfits : r.Fits m)
      (hend : Finishes (r.run host fuel) m m') : Used host m'

theorem Host.Used.founded (hnatives : ∀ C, host.natives.Keeps C) (h : host.Used m) :
    m.Founded host.path := by
  induction h with
  | empty => exact .empty
  | write _ hwork hgrounded ih => exact ih.works hwork hgrounded
  | @request m m' r fuel _ hfits hend ih =>
      obtain ⟨hgoes, hlast⟩ := hend.outcome
      have hends := (task_alike hnatives (oracle_serves hnatives fuel) fuel (.request r) m
        ⟨ih, False.elim⟩ hfits).2
      have hinv := hends.inv hgoes
      rw [← hlast]
      exact hinv.1

/-- A task is carried out on the machine, with this fuel left for it: a request or a call of the
host, what such a task asks for on its way, or an instruction of a thread. -/
inductive Host.Underway (host : Host) : Nat → Task → Machine → Prop where
  | request {m : Machine} (fuel : Nat) (r : Request) (h : host.Used m) (hfits : r.Fits m) :
      Underway host fuel (.request r) m
  | run {m : Machine} (fuel : Nat) (method : Method) (arguments : List Value) (h : host.Used m)
      (hmethod : m.HasMethod method) : Underway host fuel (.run method arguments) m
  | asked {fuel fuel' : Nat} {x : Task} {m m' : Machine} {known : Set (Query × Machine)}
      {q : Query} {events : List Event} (h : Underway host fuel x m)
      (hasks : Unfolds host fuel x m (.waiting known q m') events) (hfuel : q.Within fuel fuel') :
      Underway host fuel' q.task m'
  | step {fuel : Nat} {x : Task} {m : Machine} {t : Thread} {events : List Event}
      (h : Underway host fuel x m) (hruns : Unfolds host fuel x m (.running t) events)
      (hframes : t.frames ≠ []) : Underway host fuel (.step t.frames t.result) t.machine

theorem Host.Underway.founded (hnatives : ∀ C, host.natives.Keeps C) {x : Task}
    (h : host.Underway fuel x m) : m.Founded host.path ∧ x.Fits m := by
  induction h with
  | request fuel r hused hfits => exact ⟨hused.founded hnatives, hfits⟩
  | run fuel method arguments hused hmethod => exact ⟨hused.founded hnatives, hmethod⟩
  | asked _ hasks _ ih =>
      rcases (hasks.founded hnatives ih.1 ih.2).2 with ⟨hm, hq⟩
      exact ⟨hm, hq.task⟩
  | step _ hruns hframes ih =>
      rcases (hruns.founded hnatives ih.1 ih.2).2 with ⟨hinv, hknows⟩
      exact ⟨hinv.1, hframes, fun f hf => ⟨(hknows f hf).1, (hknows f hf).2 trivial⟩⟩

structure Host.Sturdy (host : Host) (m : Machine) : Prop where
  /-- No request ends with an internal fault. -/
  request : ∀ {fuel : Nat} {r : Request} {f : Fault} {m' : Machine}, r.Fits m →
    r.run host fuel m = .error (.fault f) m' → f.Internal → host.path.Gives f
  /-- No run ends with an internal fault, or because the root class is missing. -/
  run : ∀ {fuel : Nat} {method : Method} {arguments : List Value} {f : Fault} {m' : Machine},
    m.HasMethod method → host.invoke fuel method arguments m = .error (.fault f) m' →
      f.Internal ∨ f.RootMissing → host.path.Gives f
  /-- A class whose file is read and whose supertypes are loaded is added to the registry. -/
  registers : ∀ {fuel name file c m₁ m₂}, m.registration? name = none →
    readClassFile host.path name (m.begin name) = .ok file m₁ →
      link (host.load fuel) file m₁ = .ok c m₂ →
        ((m₂.registerPool name file.pool).registerClass c).1 = true

theorem Machine.Founded.sturdy (hnatives : ∀ C, host.natives.Keeps C) (h : m.Founded host.path) :
    host.Sturdy m := by
  constructor
  · intro fuel r f m' hfits hrun hinternal
    have hends := (Charter.request_alike ((oracle_serves hnatives fuel).oracles False) r m
      ⟨h, False.elim⟩ fun _ => hfits).2
    rw [Request.via_oracle, hrun] at hends
    exact hends.2.2 (.inl hinternal)
  · intro fuel method arguments f m' hmethod hrun hf
    obtain ⟨c, hc, -⟩ := id hmethod
    have hends := ((oracle_serves hnatives fuel).run method arguments m (founded_rooted h hc)
      fun _ => hmethod).2
    have hinvoke : host.oracle fuel (.run method arguments) m = .error (.fault f) m' := hrun
    rw [hinvoke] at hends
    exact hends.2.2 (hf.imp_right fun hroot => ⟨trivial, hroot⟩)
  · intro fuel name file c m₁ m₂ hnone hread hlink
    exact registerClass_new ((oracle_serves hnatives fuel).load False) ⟨h, False.elim⟩
      (standing?_eq_none.mpr hnone) hread hlink

/-- With the built-in methods, whatever a host does and however far it has come, no request and no
run ends with an internal fault that the class path did not give, no run finds the root class
missing, and every class that is registered is new. -/
theorem Host.Used.never_inconsistent (hnatives : host.natives = Native.library)
    (h : host.Used m) :
    host.Sturdy m ∧
      ∀ {fuel r stage events}, r.Fits m → Unfolds host fuel (.request r) m stage events →
        ∀ e ∈ events, host.Sturdy e.machine ∧ e.Fits := by
  have hkeeps (C : Charter) : host.natives.Keeps C := by
    rw [hnatives]
    exact Native.library_keeps C
  have hm := h.founded hkeeps
  refine ⟨hm.sturdy hkeeps, fun hfits hunfolds e he => ?_⟩
  obtain ⟨hfounded, hevent⟩ := (hunfolds.founded hkeeps hm hfits).1 e he
  exact ⟨hfounded.sturdy hkeeps, hevent⟩

/-- The class paths that come with the machine give no such faults. -/
theorem ClassPath.Ordinary.not_gives (h : path.Ordinary) {f : Fault}
    (hf : f.Internal ∨ f.RootMissing) : ¬ path.Gives f := by
  rintro ⟨log, name, hgives⟩
  apply h log name f hgives
  rcases hf with hinternal | hroot
  · exact .internal hinternal
  · cases hroot with
    | mk name => exact .rootNotLoaded name

end

namespace InitializedRoot

/-- While the root class is loaded its static initializer is run, and that run does not end with an
internal fault. -/
theorem initializer_sturdy :
    host.Used Machine.empty ∧
      ∃ events method arguments m,
        Unfolds host 9 (.request (.load rootName)) Machine.empty .within events ∧
          Event.asked (.load rootName) (.run method arguments) m ∈ events ∧ m.HasMethod method ∧
            ∀ fuel f m', host.invoke fuel method arguments m = .error (.fault f) m' →
              ¬ (f.Internal ∨ f.RootMissing) := by
  obtain ⟨q, m, hasks, hstarts⟩ := initializer_asked
  cases q with
  | load name => cases hstarts
  | run method arguments =>
      have hunfolds : Unfolds host 9 (.request (.load rootName)) Machine.empty .within
          ([] ++ [.asked (.request (.load rootName)) (.load rootName) Machine.empty] ++
            ([] ++ [.asked (.load rootName) (.run method arguments) m])) :=
        .answering (.ask (.start 9 _ _) load_asked_for) (.load rootName 8)
          (.ask (.start 8 _ _) hasks)
      have hmem : Event.asked (.load rootName) (.run method arguments) m ∈
          ([] ++ [.asked (.request (.load rootName)) (.load rootName) Machine.empty] ++
            ([] ++ [.asked (.load rootName) (.run method arguments) m])) := by
        simp
      have hfits : (Request.load rootName).Fits Machine.empty := trivial
      have hall := (Host.Used.never_inconsistent rfl (.empty : host.Used Machine.empty)).2 hfits
        hunfolds
      obtain ⟨hsturdy, hmethod⟩ := hall _ hmem
      refine ⟨.empty, _, method, arguments, m, hunfolds, hmem, hmethod, ?_⟩
      intro fuel f m' hrun hf
      exact (ClassPath.ofRows_ordinary _).not_gives hf (hsturdy.run hmethod hrun hf)

end InitializedRoot

end Bytecode
