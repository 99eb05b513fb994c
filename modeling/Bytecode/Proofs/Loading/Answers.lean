import Bytecode.Proofs.Loading.Course

/-!
# Answers of a host

Whatever a request asks of a host, the answer is one that the request can rely on, however deep
loads and runs are nested in each other.
-/

namespace Bytecode

open Machine Scene

variable {host : Host} {typed : Prop}

theorem Host.oracle_load (host : Host) (fuel : Nat) (name : String) :
    host.oracle (fuel + 1) (.load name) =
      loadWith host.path (host.oracle fuel).load (host.oracle fuel).initializer name := rfl

theorem Host.oracle_run (host : Host) (fuel : Nat) (method : Method) (arguments : List Value) :
    host.oracle fuel (.run method arguments) =
      Thread.invoke host (host.oracle fuel).load fuel method arguments := rfl

/-- The host answers a question as it must wherever the machine is in order. -/
def Serving (typed : Prop) (host : Host) (fuel : Nat) (q : Query) : Prop :=
  ∀ m, (conduct host.path typed none).inv m →
    (conduct host.path typed none).Serves q m (host.oracle fuel q m)

theorem serving_run (hnatives : host.natives.Polite) {fuel : Nat}
    (hload : ∀ name, Serving typed host fuel (.load name)) (method : Method)
    (arguments : List Value) : Serving typed host fuel (.run method arguments) := by
  intro m hinv
  have hdialogue := Conduct.invoke_speaks (K := conduct host.path typed (some m.loading))
    (hnatives.obeys conduct_free) fuel method arguments m (stacked_inv hinv rfl) trivial
  have hhonors : (conduct host.path typed (some m.loading)).manner.Honors (host.oracle fuel) := by
    rintro last q m' ⟨hinv', -, hruns⟩
    cases q with
    | run method' arguments' => exact absurd (hruns trivial) no_runs
    | load name =>
        obtain ⟨hends, hprompts⟩ := hload name m' (inv_of_stacked hinv').1
        exact ⟨ends_stacked hends (inv_of_stacked hinv').2, hprompts⟩
  exact ends_of_stacked (hdialogue.outcome (Conduct.manner_chains _) hhonors).1

theorem serving_load {fuel : Nat} {name : String}
    (h : ∀ q m, (conduct host.path typed none).inv m → (q.IsRun → Initializes name q m) →
      (conduct host.path typed none).Serves q m (host.oracle fuel q m)) :
    Serving typed host (fuel + 1) (.load name) := by
  intro m hinv
  have hhonors : (course host.path typed m name True).Honors (host.oracle fuel) := by
    rintro last q m' ⟨hinv', -, -, hown, -⟩
    exact h q m' hinv' hown
  refine ⟨((load_dialogue hinv name).outcome course_chains hhonors).1, ?_⟩
  intro _ c s harray hstanding
  exact .inr (loadWith_registered harray hstanding)

/-- The host answers every question as it must. -/
theorem serving (hnatives : host.natives.Polite) (fuel : Nat) (q : Query) :
    Serving typed host fuel q := by
  have hload (fuel : Nat) (name : String) : Serving typed host fuel (.load name) := by
    -- what a load asks for is served with less fuel
    induction fuel generalizing name with
    | zero =>
        intro m _
        refine ⟨trivial, fun _ => ?_⟩
        intro c s _ _
        exact .inl trivial
    | succ fuel ih =>
        apply serving_load
        intro q m hinv _
        cases q with
        | load name' => exact ih name' m hinv
        | run method arguments => exact serving_run hnatives ih method arguments m hinv
  cases q with
  | load name => exact hload fuel name
  | run method arguments => exact serving_run hnatives (hload fuel) method arguments

theorem conduct_honors (hnatives : host.natives.Polite) (fuel : Nat) :
    (conduct host.path typed none).manner.Honors (host.oracle fuel) := by
  rintro last q m ⟨hinv, -⟩
  exact serving hnatives fuel q m hinv

theorem course_honors (hnatives : host.natives.Polite) (fuel : Nat) {m : Machine} {name : String} :
    (course host.path typed m name True).Honors (host.oracle fuel) := by
  rintro last q m' ⟨hinv, -⟩
  exact serving hnatives fuel q m' hinv

end Bytecode
