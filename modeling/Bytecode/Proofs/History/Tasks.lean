import Bytecode.Proofs.History.Basic
import Bytecode.Proofs.Loading.Answers

/-!
# Tasks in a history

Every task that is started on a machine in order behaves: wherever it asks and when it ends, the
machine is in order and has only advanced since the start, since earlier questions and since their
answers.
-/

namespace Bytecode

open Machine Scene

variable {α : Type} {host : Host} {typed : Prop} {fuel : Nat} {x : Task} {m m' : Machine}

structure Task.Behaves (typed : Prop) (host : Host) (fuel : Nat) (x : Task) (m : Machine) :
    Prop where
  asked : ∀ {known q m'}, x.Asks host fuel m known q m' →
    (conduct host.path typed none).inv m' ∧ Advances typed m m' ∧ m.loading ⊆ m'.loading
  follows : ∀ {known known' q m₁ q' m₂}, x.Asks host fuel m known q m₁ →
    x.Asks host fuel m known' q' m₂ → known ⊆ known' → (q, m₁) ∈ known' →
      ¬ Stops (host.oracle fuel q m₁) ∧ Advances typed (lastState (host.oracle fuel q m₁)) m₂
  answered : ∀ {known q m'}, x.Asks host fuel m known q m' → ¬ Stops (x.outcome host fuel m) →
    ¬ Stops (host.oracle fuel q m') ∧
      Advances typed (lastState (host.oracle fuel q m')) (lastState (x.outcome host fuel m))
  ends : (conduct host.path typed none).Ends (fun _ _ => True) m (x.outcome host fuel m)

structure Manner.Advancing (M : Manner) (typed : Prop) (path : ClassPath) (m : Machine) : Prop where
  first : ∀ {q m'}, M.asks (.begun m) q m' →
    (conduct path typed none).inv m' ∧ Advances typed m m' ∧ m.loading ⊆ m'.loading
  later : ∀ {q m₁ q' m₂}, M.asks (.answered q m₁) q' m₂ → Advances typed m₁ m₂
  last : ∀ {q m₁ m₂}, M.ends (.answered q m₁) m₂ → Advances typed m₁ m₂

theorem Dialogue.behaves {M : Manner}
    (h : Dialogue M id ((conduct host.path typed none).Ends (fun _ _ => True) m) (.begun m)
      fun o => x.via host fuel o m)
    (hchains : M.Chains) (hhonors : M.Honors (host.oracle fuel))
    (hadvancing : M.Advancing typed host.path m) : x.Behaves typed host fuel m where
  asked hasks := hadvancing.first (h.asked hchains hhonors hasks)
  follows hasks hasks' hsub hmem := by
    obtain ⟨hgoes, hnext⟩ := h.following hchains hhonors hasks hasks' hsub hmem
    exact ⟨hgoes, hadvancing.later hnext⟩
  answered hasks hends := by
    obtain ⟨hgoes, hend⟩ := h.answered hchains hhonors hasks hends
    exact ⟨hgoes, hadvancing.last hend⟩
  ends := (h.outcome hchains hhonors).1

theorem manner_advancing : (conduct host.path typed none).manner.Advancing typed host.path m where
  first h := ⟨h.1, .of_extends h.2.1, h.2.1.1.loading ▸ List.Subset.refl _⟩
  later h := .of_extends h.2.1
  last h := .of_extends h

theorem course_advancing {name : String} :
    (course host.path typed m name True).Advancing typed host.path m where
  first := by
    rintro q m' ⟨hinv, hadvance, hloading, -, -⟩
    refine ⟨hinv, hadvance, ?_⟩
    rw [hloading]
    exact List.subset_cons_self name m.loading
  later h := h.2.1
  last h := h.1

theorem discard_eq (y : MachineM α) (m : Machine) :
    (discard y : MachineM Unit) m = andThen (fun _ => pure ()) (y m) := by
  show EStateM.map _ y m = _
  unfold EStateM.map
  cases y m <;> rfl

theorem Dialogue.unanswered {M : Manner} {T : Terms Machine} {Q : α → Machine → Prop}
    {last : Moment} {y : Oracle → MachineM α} (h : Dialogue M id (T.Ends Q m) last fun o => y o m) :
    Dialogue M id (T.Ends (fun _ _ => True) m) last fun o => (discard (y o) : MachineM Unit) m := by
  simp only [discard_eq]
  apply h.follow (k := fun r _ => andThen (fun _ => pure ()) r) id id
  · exact fun m' => ⟨m', fun _ => rfl⟩
  · intro last' r hend hr
    cases r with
    | ok a m' => exact .done hend ⟨hr.1, hr.2.1, trivial⟩
    | error e m' =>
        cases e with
        | fault f => exact .done hend hr
        | outOfFuel => exact .done hend trivial

section

variable (hnatives : host.natives.Polite) (hinv : (conduct host.path typed none).inv m)

include hnatives hinv

theorem request_behaves (r : Request) : (Task.request r).Behaves typed host fuel m := by
  have hspeaks := Conduct.request_speaks (conduct host.path typed none) rfl r m hinv trivial
  exact hspeaks.behaves (Conduct.manner_chains _) (conduct_honors hnatives fuel) manner_advancing

theorem run_behaves (method : Method) (arguments : List Value) :
    (Task.run method arguments).Behaves typed host fuel m := by
  have hspeaks := (Conduct.invoke_speaks (K := conduct host.path typed none)
    (hnatives.obeys conduct_free) fuel method arguments).map fun _ => ()
  exact (hspeaks m hinv trivial).behaves (Conduct.manner_chains _) (conduct_honors hnatives fuel)
    manner_advancing

/-- One instruction behaves, and leaves the constant tables of its frames known. -/
theorem step_behaves {frames : List Frame} (result : Option Value)
    (hknown : ∀ f ∈ frames, Contract.Known f.pool m) :
    (Task.step frames result).Behaves typed host fuel m := by
  have hspeaks := Conduct.thread_step_speaks (K := conduct host.path typed none)
    (hnatives.obeys conduct_free) 0 ⟨m, frames, result⟩ ⟨hinv, hknown⟩ trivial
  have hmachine : Dialogue (conduct host.path typed none).manner id
      ((conduct host.path typed none).Ends (fun _ _ => True) m) (.begun m)
      fun o => (Task.step frames result).via host fuel o m :=
    dialogue_mapState (U := (conduct host.path typed none).scene) hspeaks Thread.machine
      (fun _ hinv' hrel => ⟨hinv'.1, hrel⟩) (fun _ _ _ => trivial) (fun _ => rfl) fun _ hf => hf
  exact hmachine.behaves (Conduct.manner_chains _) (conduct_honors hnatives fuel) manner_advancing

theorem load_behaves (name : String) : (Task.load name).Behaves typed host fuel m :=
  (load_dialogue hinv name).unanswered.behaves course_chains (course_honors hnatives fuel)
    course_advancing

/-- A load that asks for anything is the first one of its class, and marks it. -/
theorem load_asked {name : String} {known : Set (Query × Machine)} {q : Query}
    (hasks : (Task.load name).Asks host fuel m known q m') :
    m.standing? name = none ∧ name ∉ m.loading ∧ m'.loading = name :: m.loading ∧
      (q.IsRun → Initializes name q m') := by
  have hasked := (load_dialogue hinv name).unanswered.asked course_chains
    (course_honors hnatives fuel) hasks
  have hvaries (r : EStateM.Result Halt Machine Loaded)
      (h : ∀ o : Oracle, loadWith host.path o.load o.initializer name m = r) : False := by
    apply Dialogue.not_asks_const (andThen (fun _ => pure ()) r : EStateM.Result Halt Machine Unit)
    simpa only [Task.Asks, Task.via, discard_eq, h] using hasks
  have harray : Descriptor.isArray name = false := by
    cases h : Descriptor.isArray name with
    | false => rfl
    | true => exact (hvaries _ fun o => congrFun (loadWith_array h) m).elim
  have hnone : m.standing? name = none := by
    cases h : m.standing? name with
    | none => rfl
    | some p => exact (hvaries _ fun o => loadWith_registered harray h).elim
  refine ⟨hnone, fun hmem => ?_, hasked.2.2.1, hasked.2.2.2.1⟩
  exact hvaries _ fun o => loadWith_circular harray hnone hmem

theorem load_follows {name : String} {known known' : Set (Query × Machine)} {q q' : Query}
    {m₁ m₂ : Machine} (hasks : (Task.load name).Asks host fuel m known q m₁)
    (hasks' : (Task.load name).Asks host fuel m known' q' m₂) (hsub : known ⊆ known')
    (hmem : (q, m₁) ∈ known') : ¬ q.IsRun := by
  have hnext := ((load_dialogue hinv name).unanswered.following course_chains
    (course_honors hnatives fuel) hasks hasks' hsub hmem).2
  intro hrun
  cases q with
  | load n => exact hrun
  | run method arguments => exact hnext.2.2.2.2 trivial

end

end Bytecode
