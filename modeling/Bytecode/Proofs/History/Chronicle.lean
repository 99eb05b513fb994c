import Bytecode.Proofs.History.Tasks

/-!
# Order of events

In a history the machine only advances from event to event, and the loader starts the static
initializer of a class at most once.
-/

namespace Bytecode

open Machine Scene

variable {α : Type} {host : Host} {path : ClassPath} {typed : Prop} {fuel : Nat} {x : Task}
  {m m' : Machine} {events inner : List Event}

/-!
# Lists of events
-/

def Machine.Taken (m : Machine) (name : String) : Prop :=
  (∃ s, m.standing? name = some s) ∨ name ∈ m.loading

theorem Advances.registered (h : Advances typed m m') {name : String}
    (hname : ∃ s, m.standing? name = some s) : ∃ s, m'.standing? name = some s := by
  obtain ⟨⟨c, s⟩, hs⟩ := hname
  obtain ⟨s', hs', -⟩ := h.1.standing hs
  exact ⟨(c, s'), hs'⟩

theorem Machine.Taken.mono {name : String} (h : m.Taken name) (hadvance : Advances typed m m')
    (hloading : m.loading ⊆ m'.loading) : m'.Taken name :=
  h.imp hadvance.registered fun hmem => hloading hmem

def Event.Precedes (typed : Prop) (a b : Event) : Prop :=
  Advances typed a.machine b.machine ∧ ∀ name, a.Starts name → ¬ b.Starts name

/-- What is known of events in order that begin on a machine. -/
structure Chronicle (path : ClassPath) (typed : Prop) (m : Machine) (events : List Event) :
    Prop where
  inv : ∀ e ∈ events, (conduct path typed none).inv e.machine
  after : ∀ e ∈ events, Advances typed m e.machine
  ordered : events.Pairwise (Event.Precedes typed)
  quiet : ∀ name, m.Taken name → ∀ e ∈ events, ¬ e.Starts name
  registered : ∀ name, ∀ e ∈ events, e.Starts name → ∃ s, e.machine.standing? name = some s
  loading : ∀ q a b, Event.answered q a b ∈ events → b.loading = a.loading

namespace Chronicle

theorem nil : Chronicle path typed m [] where
  inv := List.forall_mem_nil _
  after := List.forall_mem_nil _
  ordered := .nil
  quiet _ _ := List.forall_mem_nil _
  registered _ := List.forall_mem_nil _
  loading _ _ _ h := absurd h List.not_mem_nil

theorem append (h : Chronicle path typed m events) (h' : Chronicle path typed m' inner)
    (hnow : ∀ e ∈ events, Advances typed e.machine m') (hadvance : Advances typed m m')
    (hloading : m.loading ⊆ m'.loading) : Chronicle path typed m (events ++ inner) := by
  constructor
  · exact List.forall_mem_append.mpr ⟨h.inv, h'.inv⟩
  · exact List.forall_mem_append.mpr ⟨h.after, fun e he => hadvance.trans (h'.after e he)⟩
  · refine List.pairwise_append.mpr ⟨h.ordered, h'.ordered, ?_⟩
    intro a ha b hb
    refine ⟨(hnow a ha).trans (h'.after b hb), fun name hstarts => ?_⟩
    have htaken : m'.Taken name :=
      .inl ((hnow a ha).registered (h.registered name a ha hstarts))
    exact h'.quiet name htaken b hb
  · intro name htaken
    exact List.forall_mem_append.mpr
      ⟨h.quiet name htaken, h'.quiet name (htaken.mono hadvance hloading)⟩
  · intro name
    exact List.forall_mem_append.mpr ⟨h.registered name, h'.registered name⟩
  · intro q a b he
    rcases List.mem_append.mp he with he | he
    · exact h.loading q a b he
    · exact h'.loading q a b he

theorem snoc (h : Chronicle path typed m events) {e : Event}
    (hinv : (conduct path typed none).inv e.machine) (hafter : Advances typed m e.machine)
    (hnow : ∀ a ∈ events, a.Precedes typed e) (hquiet : ∀ name, m.Taken name → ¬ e.Starts name)
    (hregistered : ∀ name, e.Starts name → ∃ s, e.machine.standing? name = some s)
    (hloading : ∀ q a b, e = .answered q a b → b.loading = a.loading) :
    Chronicle path typed m (events ++ [e]) := by
  constructor
  · exact List.forall_mem_append.mpr ⟨h.inv, List.forall_mem_singleton.mpr hinv⟩
  · exact List.forall_mem_append.mpr ⟨h.after, List.forall_mem_singleton.mpr hafter⟩
  · refine List.pairwise_append.mpr ⟨h.ordered, List.pairwise_singleton _ _, ?_⟩
    intro a ha b hb
    rw [List.mem_singleton.mp hb]
    exact hnow a ha
  · intro name htaken
    exact List.forall_mem_append.mpr
      ⟨h.quiet name htaken, List.forall_mem_singleton.mpr (hquiet name htaken)⟩
  · intro name
    exact List.forall_mem_append.mpr
      ⟨h.registered name, List.forall_mem_singleton.mpr (hregistered name)⟩
  · intro q a b he
    rcases List.mem_append.mp he with he | he
    · exact h.loading q a b he
    · exact hloading q a b (List.mem_singleton.mp he).symm

theorem snoc_idle (h : Chronicle path typed m events) {e : Event}
    (hinv : (conduct path typed none).inv e.machine) (hafter : Advances typed m e.machine)
    (hnow : ∀ a ∈ events, Advances typed a.machine e.machine) (hidle : ∀ name, ¬ e.Starts name)
    (hloading : ∀ q a b, e = .answered q a b → b.loading = a.loading) :
    Chronicle path typed m (events ++ [e]) :=
  h.snoc hinv hafter (fun a ha => ⟨hnow a ha, fun name _ => hidle name⟩) (fun name _ => hidle name)
    (fun name hstarts => absurd hstarts (hidle name)) hloading

end Chronicle

/-!
# Tasks under way
-/

structure Task.Proper (typed : Prop) (host : Host) (x : Task) (m : Machine) : Prop where
  inv : (conduct host.path typed none).inv m
  known : ∀ {frames result}, x = .step frames result → ∀ f ∈ frames, Contract.Known f.pool m

theorem Query.proper (q : Query) (hinv : (conduct host.path typed none).inv m) :
    q.task.Proper typed host m := by
  refine ⟨hinv, fun heq => ?_⟩
  cases q <;> cases heq

theorem Task.Proper.behaves (hnatives : host.natives.Polite) (h : x.Proper typed host m)
    (fuel : Nat) : x.Behaves typed host fuel m := by
  cases x with
  | request r => exact request_behaves hnatives h.inv r
  | load name => exact load_behaves hnatives h.inv name
  | run method arguments => exact run_behaves hnatives h.inv method arguments
  | step frames result => exact step_behaves hnatives h.inv result (h.known rfl)

theorem stops_discard (r : EStateM.Result Halt Machine α) :
    (Stops (andThen (fun _ => pure ()) r : EStateM.Result Halt Machine Unit) ↔ Stops r) ∧
      lastState (andThen (fun _ => pure ()) r : EStateM.Result Halt Machine Unit) =
        lastState r := by
  cases r with
  | ok a m => exact ⟨Iff.rfl, rfl⟩
  | error e m => cases e <;> exact ⟨Iff.rfl, rfl⟩

/-- A question is answered as the task ends that answers it. -/
theorem Query.Within.outcome {q : Query} {fuel' : Nat} (h : q.Within fuel fuel') (host : Host)
    (m : Machine) :
    (Stops (q.task.outcome host fuel' m) ↔ Stops (host.oracle fuel q m)) ∧
      lastState (q.task.outcome host fuel' m) = lastState (host.oracle fuel q m) := by
  cases h with
  | load name =>
      rw [Host.oracle_load, Task.outcome]
      simp only [Query.task, Task.via, discard_eq]
      exact stops_discard _
  | run method arguments =>
      rw [Host.oracle_run, Task.outcome]
      simp only [Query.task, Task.via, discard_eq]
      exact stops_discard _

end Bytecode
