import Bytecode.Proofs.History.Order
import Bytecode.Proofs.TypeObjects.Loads

/-!
# The objects of types in the course of a history

From event to event of a history the objects of types are upheld.  This goes for the tasks within a
task, and for each instruction of a run.
-/

namespace Bytecode

open Machine Scene

variable {host : Host} {fuel : Nat} {x : Task} {m m' : Machine} {events inner : List Event}
  {known : Set (Query × Machine)} {q : Query} {t t' : Thread}

namespace TypeObjects

/-- The objects of types are upheld from a machine to each event, and from event to event. -/
structure Upheld (m : Machine) (events : List Event) : Prop where
  after : ∀ e ∈ events, m.Upholds e.machine
  ordered : events.Pairwise fun a b => a.machine.Upholds b.machine

theorem Upheld.nil : Upheld m [] :=
  ⟨List.forall_mem_nil _, .nil⟩

theorem Upheld.append (h : Upheld m events) (h' : Upheld m' inner)
    (hnow : ∀ e ∈ events, e.machine.Upholds m') (hm : m.Upholds m') :
    Upheld m (events ++ inner) := by
  constructor
  · exact List.forall_mem_append.mpr ⟨h.after, fun e he => hm.trans (h'.after e he)⟩
  · exact List.pairwise_append.mpr
      ⟨h.ordered, h'.ordered, fun a ha b hb => (hnow a ha).trans (h'.after b hb)⟩

theorem Upheld.snoc {e : Event} (h : Upheld m events)
    (hnow : ∀ a ∈ events, a.machine.Upholds e.machine) (hm : m.Upholds e.machine) :
    Upheld m (events ++ [e]) :=
  h.append ⟨List.forall_mem_singleton.mpr (.refl _), List.pairwise_singleton _ _⟩ hnow hm

theorem into_snoc {e : Event} (hnow : ∀ a ∈ events, a.machine.Upholds e.machine) :
    ∀ a ∈ events ++ [e], a.machine.Upholds e.machine :=
  List.forall_mem_append.mpr ⟨hnow, List.forall_mem_singleton.mpr (.refl _)⟩

theorem into_append {m'' : Machine} (hnow : ∀ e ∈ events, e.machine.Upholds m')
    (hlater : m'.Upholds m'') (hinside : ∀ e ∈ inner, e.machine.Upholds m'') :
    ∀ e ∈ events ++ inner, e.machine.Upholds m'' :=
  List.forall_mem_append.mpr ⟨fun e he => (hnow e he).trans hlater, hinside⟩

/-!
# Tasks
-/

section

variable (hnatives : host.natives.Discreet)

include hnatives

theorem task_dialogue (fuel : Nat) (x : Task) (m : Machine) :
    Dialogue discretion.manner id (discretion.Ends (fun _ _ => True) m) (.begun m)
      fun o => x.via host fuel o m := by
  cases x with
  | request r => exact Conduct.request_speaks discretion trivial r m trivial trivial
  | load name =>
      exact Dialogue.unanswered (loadWith_talks host.path name m trivial trivial)
  | run method arguments =>
      exact Dialogue.unanswered
        (Conduct.invoke_speaks hnatives fuel method arguments m trivial trivial)
  | step frames result =>
      have hstep := Conduct.thread_step_speaks hnatives 0 ⟨m, frames, result⟩
        ⟨trivial, fun _ _ => trivial⟩ trivial
      exact dialogue_mapState (U := discretion.scene) hstep Thread.machine
        (fun _ _ hrel => ⟨trivial, hrel⟩) (fun _ _ _ => trivial) (fun _ => rfl) fun _ hf => hf

theorem asked (hasks : x.Asks host fuel m known q m') : m.Upholds m' :=
  ((task_dialogue hnatives fuel x m).asked (Conduct.manner_chains _) (honors hnatives fuel)
    hasks).2.1

theorem answered (hasks : x.Asks host fuel m known q m')
    (hends : ¬ Stops (x.outcome host fuel m)) :
    ¬ Stops (host.oracle fuel q m') ∧
      (lastState (host.oracle fuel q m')).Upholds (lastState (x.outcome host fuel m)) :=
  (task_dialogue hnatives fuel x m).answered (Conduct.manner_chains _) (honors hnatives fuel)
    hasks hends

theorem followed {known' : Set (Query × Machine)} {q' : Query} {m₁ m₂ : Machine}
    (hasks : x.Asks host fuel m known q m₁) (hasks' : x.Asks host fuel m known' q' m₂)
    (hsub : known ⊆ known') (hmem : (q, m₁) ∈ known') :
    (lastState (host.oracle fuel q m₁)).Upholds m₂ :=
  ((task_dialogue hnatives fuel x m).following (Conduct.manner_chains _) (honors hnatives fuel)
    hasks hasks' hsub hmem).2.2.1

theorem ended (hends : ¬ Stops (x.outcome host fuel m)) :
    m.Upholds (lastState (x.outcome host fuel m)) :=
  ((task_dialogue hnatives fuel x m).outcome (Conduct.manner_chains _)
    (honors hnatives fuel)).2 hends

theorem query_upholds (hgoes : ¬ Stops (host.oracle fuel q m)) :
    m.Upholds (lastState (host.oracle fuel q m)) := by
  have hasked : discretion.manner.asks (.begun m) q m := ⟨trivial, .refl m, fun _ => trivial⟩
  exact Conduct.Serves.rel (honors hnatives fuel hasked) hgoes

/-!
# Runs from one instruction on
-/

theorem run_upholds {k : Nat} (hgoes : ¬ Stops (Thread.run host (host.load fuel) k 0 t)) :
    t.machine.Upholds (lastState (Thread.run host (host.load fuel) k 0 t)).machine :=
  (Conduct.run_ends hnatives (honors hnatives fuel) ⟨trivial, fun _ _ => trivial⟩ k).rel hgoes

theorem step_upholds (hstep : Thread.step host (host.load fuel) 0 t = .ok () t') :
    t.machine.Upholds t'.machine := by
  have hends := Conduct.step_ends hnatives (honors hnatives fuel) (t := t)
    ⟨trivial, fun _ _ => trivial⟩
  rw [hstep] at hends
  exact hends.2.1

end

/-!
# Stages of a task
-/

def Covered (host : Host) (fuel : Nat) (x : Task) (m : Machine) (known : Set (Query × Machine))
    (m₁ : Machine) : Prop :=
  ∃ q m' known', (q, m') ∈ known ∧ known' ⊆ known ∧ x.Asks host fuel m known' q m' ∧
    m₁.Upholds (lastState (host.oracle fuel q m'))

def Fits (host : Host) (fuel : Nat) (x : Task) (m : Machine) (events : List Event) : Stage → Prop
  | .going known => ∀ e ∈ events, Covered host fuel x m known e.machine
  | .waiting known q m' => x.Asks host fuel m known q m' ∧ ∀ e ∈ events, e.machine.Upholds m'
  | .running t => m.Upholds t.machine ∧ (∀ e ∈ events, e.machine.Upholds t.machine) ∧
      (Stops (x.outcome host fuel m) ∨ ∃ k, x.outcome host fuel m =
        Terms.mapState Thread.machine (Thread.run host (host.load fuel) k 0 t))
  | .within => ¬ Stops (x.outcome host fuel m) →
      ∀ e ∈ events, e.machine.Upholds (lastState (x.outcome host fuel m))

section

variable (hnatives : host.natives.Discreet) {stage : Stage}

include hnatives

theorem before_end (h : Fits host fuel x m events stage)
    (hends : ¬ Stops (x.outcome host fuel m)) :
    ∀ e ∈ events, e.machine.Upholds (lastState (x.outcome host fuel m)) := by
  intro e he
  cases stage with
  | going known =>
      obtain ⟨q, m', known', -, -, hasks, hcovered⟩ := h e he
      exact hcovered.trans (answered hnatives hasks hends).2
  | waiting known q m' =>
      obtain ⟨hgoes, hend⟩ := answered hnatives h.1 hends
      exact (h.2 e he).trans ((query_upholds hnatives hgoes).trans hend)
  | running t =>
      obtain ⟨-, hevents, hstops | ⟨k, hk⟩⟩ := h
      · exact absurd hstops hends
      · rw [hk, (stops_mapState _ _).1] at hends
        rw [hk, (stops_mapState _ _).2]
        exact (hevents e he).trans (run_upholds hnatives hends)
  | within => exact h hends e he

theorem before_answer {fuel' : Nat} (hfuel : q.Within fuel fuel')
    (hinner : Fits host fuel' q.task m' inner stage)
    (hgoes : ¬ Stops (host.oracle fuel q m')) :
    ∀ e ∈ inner, e.machine.Upholds (lastState (host.oracle fuel q m')) := by
  have houtcome := hfuel.outcome host m'
  rw [← houtcome.2]
  exact before_end hnatives hinner (houtcome.1.not.mpr hgoes)

theorem before_question (h : Fits host fuel x m events (.going known))
    (hasks : x.Asks host fuel m known q m') : ∀ e ∈ events, e.machine.Upholds m' := by
  intro e he
  obtain ⟨q₁, m₁, known₁, hmem, hsub, hasks₁, hcovered⟩ := h e he
  exact hcovered.trans (followed hnatives hasks₁ hasks hsub hmem)

theorem before_next (hinner : Fits host fuel (.step t.frames t.result) t.machine inner stage)
    (hstep : Thread.step host (host.load fuel) 0 t = .ok () t') :
    ∀ e ∈ inner, e.machine.Upholds t'.machine := by
  have hwhole : (Task.step t.frames t.result).outcome host fuel t.machine = .ok () t'.machine :=
    congrArg (Terms.mapState Thread.machine) hstep
  have hinside := before_end hnatives hinner (by rw [hwhole]; exact id)
  rwa [hwhole] at hinside

theorem before_run_end {k : Nat} (hframes : t.frames ≠ [])
    (hinner : Fits host fuel (.step t.frames t.result) t.machine inner stage)
    (hgoes : ¬ Stops (Thread.run host (host.load fuel) k 0 t)) :
    ∀ e ∈ inner, e.machine.Upholds
      (lastState (Thread.run host (host.load fuel) k 0 t)).machine := by
  obtain ⟨hstep, hafter⟩ := Conduct.run_after_step hnatives (honors hnatives fuel)
    ⟨trivial, fun _ _ => trivial⟩ hframes hgoes
  have hwhole := stops_mapState Thread.machine (Thread.step host (host.load fuel) 0 t)
  intro e he
  have hinside := before_end hnatives hinner (hwhole.1.not.mpr hstep) e he
  exact (hwhole.2 ▸ hinside).trans hafter

theorem unfolds_upheld (h : Unfolds host fuel x m stage events) :
    Upheld m events ∧ Fits host fuel x m events stage := by
  -- the stage holds the machine from which the next event starts, and the events are upheld into it
  induction h with
  | start fuel x m => exact ⟨.nil, List.forall_mem_nil _⟩
  | @ask fuel x m m' known q events _ hasks ih =>
      have hnow := before_question hnatives ih.2 hasks
      exact ⟨ih.1.snoc hnow (asked hnatives hasks), hasks, into_snoc (e := .asked x q m') hnow⟩
  | @answer fuel fuel' x m m' known q stage events inner _ hfuel _ hgoes ih ihinner =>
      obtain ⟨hasks, hnow⟩ := ih.2
      have hm := asked hnatives hasks
      have hquery := query_upholds hnatives hgoes
      have hlast := into_append hnow hquery (before_answer hnatives hfuel ihinner.2 hgoes)
      refine ⟨(ih.1.append ihinner.1 hnow hm).snoc hlast (hm.trans hquery), fun e he => ?_⟩
      exact ⟨q, m', known, Set.mem_insert _ _, Set.subset_insert _ _, hasks,
        into_snoc (e := .answered q m' _) hlast e he⟩
  | @answering fuel fuel' x m m' known q stage events inner _ hfuel _ ih ihinner =>
      obtain ⟨hasks, hnow⟩ := ih.2
      refine ⟨ih.1.append ihinner.1 hnow (asked hnatives hasks), fun hends => ?_⟩
      obtain ⟨hgoes, hend⟩ := answered hnatives hasks hends
      have hinside := before_answer hnatives hfuel ihinner.2 hgoes
      exact into_append hnow ((query_upholds hnatives hgoes).trans hend)
        fun e he => (hinside e he).trans hend
  | @enter fuel method arguments m t htakes hpush =>
      have hpushed := ((Conduct.pushFrame_speaks (K := discretion) host method
        (OperandStack.ofValues arguments).toList ⟨m, [], none⟩ ⟨trivial, fun _ _ => trivial⟩
          trivial).outcome (Conduct.manner_chains _) (honors hnatives fuel)).1
      dsimp only at hpushed
      rw [hpush] at hpushed
      exact ⟨.nil, hpushed.2.1, List.forall_mem_nil _,
        .inr ⟨fuel, Thread.invoke_of_push htakes hpush⟩⟩
  | @step fuel x m t t' stage events inner _ hframes _ hstep ih ihinner =>
      obtain ⟨hm, hnow, houtcome⟩ := ih.2
      have hstepped := step_upholds hnatives hstep
      have hlast := into_append hnow hstepped (before_next hnatives ihinner.2 hstep)
      refine ⟨(ih.1.append ihinner.1 hnow hm).snoc (e := .executed t'.machine) hlast
        (hm.trans hstepped), hm.trans hstepped, into_snoc (e := .executed t'.machine) hlast, ?_⟩
      -- what is left of a run that ends is the run of the next thread
      rcases houtcome with hstops | ⟨k, hk⟩
      · exact .inl hstops
      · cases k with
        | zero =>
            rw [hk]
            exact .inl trivial
        | succ k => exact .inr ⟨k, by rw [hk, Thread.run_of_step hframes hstep]⟩
  | @stepping fuel x m t stage events inner _ hframes _ ih ihinner =>
      obtain ⟨hm, hnow, houtcome⟩ := ih.2
      refine ⟨ih.1.append ihinner.1 hnow hm, fun hends => ?_⟩
      rcases houtcome with hstops | ⟨k, hk⟩
      · exact absurd hstops hends
      · rw [hk, (stops_mapState _ _).1] at hends
        rw [hk, (stops_mapState _ _).2]
        exact into_append hnow (run_upholds hnatives hends)
          (before_run_end hnatives hframes ihinner.2 hends)

/-!
# Whole histories
-/

theorem rests_upheld (h : Rests host Spares events m) :
    Upheld Machine.empty events ∧ Machine.empty.Upholds m ∧ ∀ e ∈ events, e.machine.Upholds m := by
  induction h with
  | empty =>
      exact ⟨Upheld.nil.snoc (List.forall_mem_nil _) (.refl _), .refl _,
        List.forall_mem_singleton.mpr (.refl _)⟩
  | @write m m' events _ hwrite ih =>
      obtain ⟨hupheld, hm, hnow⟩ := ih
      have hlast : ∀ e ∈ events, e.machine.Upholds m' := fun e he =>
        (hnow e he).trans hwrite.upholds
      exact ⟨hupheld.snoc (e := .rested m') hlast (hm.trans hwrite.upholds),
        hm.trans hwrite.upholds, into_snoc (e := .rested m') hlast⟩
  | @request fuel m m' r stage events inner _ hinner hend ih =>
      obtain ⟨hupheld, hm, hnow⟩ := ih
      obtain ⟨hgoes, houtcome⟩ := hend.outcome
      obtain ⟨hwithin, hfits⟩ := unfolds_upheld hnatives hinner
      have hdone := ended hnatives hgoes
      have hinside := before_end hnatives hfits hgoes
      rw [houtcome] at hdone hinside
      have hlast := into_append hnow hdone hinside
      exact ⟨(hupheld.append hwithin hnow hm).snoc (e := .rested m') hlast (hm.trans hdone),
        hm.trans hdone, into_snoc (e := .rested m') hlast⟩

/-- The objects of types are upheld in the course of a history. -/
theorem history_upheld (h : History host Spares events) : Upheld Machine.empty events := by
  obtain ⟨fuel, r, m, stage, before, inner, hrests, hinner, rfl⟩ := h
  obtain ⟨hupheld, hm, hnow⟩ := rests_upheld hnatives hrests
  exact hupheld.append (unfolds_upheld hnatives hinner).1 hnow hm

end

end TypeObjects
end Bytecode
