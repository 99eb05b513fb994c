import Bytecode.Proofs.History.Chronicle

/-!
# Order of events in a history

The events of a task that is started on a machine in order are in order, and if the task ends, the
machine at its end comes after all of them.  This goes for the tasks within it, and for each
instruction of a run.
-/

namespace Bytecode

open Machine Scene

variable {α : Type} {host : Host} {typed : Prop} {fuel : Nat} {x : Task} {m m' : Machine}
  {events inner : List Event}

/-!
# Runs from one instruction on
-/

theorem stops_mapState {σ τ : Type} (f : σ → τ) (r : EStateM.Result Halt σ α) :
    (Stops (Terms.mapState f r) ↔ Stops r) ∧ lastState (Terms.mapState f r) = f (lastState r) := by
  cases r with
  | ok a s => exact ⟨Iff.rfl, rfl⟩
  | error e s => cases e <;> exact ⟨Iff.rfl, rfl⟩

namespace Thread

variable {load : Loader} {t t' : Thread} {k : Nat}

theorem run_succ (hframes : t.frames ≠ []) :
    run host load (k + 1) 0 t =
      close 0 ((step host load 0 >>= fun _ => steps host load 0 k) t) := by
  have hmore : ¬ t.isDone 0 := by simpa [isDone] using hframes
  rw [run_eq_close, steps_succ, if_neg hmore]

theorem run_of_step (hframes : t.frames ≠ []) (hstep : step host load 0 t = .ok () t') :
    run host load (k + 1) 0 t = run host load k 0 t' := by
  rw [run_succ hframes, bind_of_ok hstep, run_eq_close]

theorem run_of_halt (hframes : t.frames ≠ []) {e : Halt}
    (hstep : step host load 0 t = .error e t') :
    run host load (k + 1) 0 t = close 0 (.error e t') := by
  rw [run_succ hframes, bind_of_error hstep]

theorem invoke_of_push {method : Method} {arguments : List Value} (htakes : method.Takes arguments)
    (hpush : pushFrame host method (OperandStack.ofValues arguments).toList ⟨m, [], none⟩ =
      .ok () t) :
    (discard (invoke host load fuel method arguments) : MachineM Unit) m =
      Terms.mapState machine (run host load fuel 0 t) := by
  rw [discard_eq]
  unfold invoke
  simp only [htakes.size, htakes.native, htakes.abstract, ne_eq, not_true, if_false,
    Bool.false_eq_true]
  unfold onFresh
  rw [bind_of_ok hpush]
  cases hrun : run host load fuel 0 t with
  | ok a t' =>
      rw [bind_of_ok hrun]
      rfl
  | error e t' =>
      rw [bind_of_error hrun]
      rfl

end Thread

namespace Conduct

variable {K : Conduct} {t : Thread} (hnatives : host.natives.Obeys K)
  (hhonors : K.manner.Honors (host.oracle fuel)) (hinv : K.thread.inv t)

include hnatives hhonors hinv

theorem step_ends :
    K.thread.Ends (fun _ _ => True) t (Thread.step host (host.load fuel) 0 t) :=
  ((thread_step_speaks hnatives 0 t hinv trivial).outcome K.manner_chains hhonors).1

theorem run_ends (k : Nat) :
    K.thread.Ends (fun _ _ => True) t (Thread.run host (host.load fuel) k 0 t) :=
  ((run_speaks hnatives k 0 t hinv trivial).outcome K.manner_chains hhonors).1

theorem run_after_step {k : Nat} (hframes : t.frames ≠ [])
    (hgoes : ¬ Stops (Thread.run host (host.load fuel) k 0 t)) :
    ¬ Stops (Thread.step host (host.load fuel) 0 t) ∧
      K.rel (lastState (Thread.step host (host.load fuel) 0 t)).machine
        (lastState (Thread.run host (host.load fuel) k 0 t)).machine := by
  cases k with
  | zero => exact absurd trivial hgoes
  | succ k =>
      have hends := step_ends hnatives hhonors hinv
      cases hstep : Thread.step host (host.load fuel) 0 t with
      | ok a t' =>
          rw [hstep] at hends
          rw [Thread.run_of_step hframes hstep] at hgoes ⊢
          exact ⟨id, (run_ends hnatives hhonors hends.1 k).rel hgoes⟩
      | error e t' =>
          rw [hstep] at hends
          rw [Thread.run_of_halt hframes hstep] at hgoes ⊢
          cases e with
          | outOfFuel => exact absurd trivial hgoes
          | fault f => exact ⟨id, (recordFault_keeps hends.1.1 0 f).2⟩

end Conduct

/-!
# Stages of a task
-/

/-- The event belongs to a question that is answered, and is over with the answer.  What happens in
between starts no initializer that was under way when the question was asked. -/
def Task.Covers (typed : Prop) (host : Host) (fuel : Nat) (x : Task) (m : Machine)
    (known : Set (Query × Machine)) (e : Event) : Prop :=
  ∃ q m' known', (q, m') ∈ known ∧ known' ⊆ known ∧ x.Asks host fuel m known' q m' ∧
    Advances typed e.machine (lastState (host.oracle fuel q m')) ∧
      (e = .asked x q m' ∨ ∀ name, m'.Taken name → ¬ e.Starts name)

def Stage.Fits (typed : Prop) (host : Host) (fuel : Nat) (x : Task) (m : Machine)
    (events : List Event) : Stage → Prop
  | going known => ∀ e ∈ events, x.Covers typed host fuel m known e
  | waiting known q m' => x.Asks host fuel m known q m' ∧ ∃ earlier,
      events = earlier ++ [.asked x q m'] ∧ ∀ e ∈ earlier, x.Covers typed host fuel m known e
  | running t => (conduct host.path typed none).thread.inv t ∧
      (conduct host.path typed none).rel m t.machine ∧
        (∀ e ∈ events, Advances typed e.machine t.machine) ∧
          (Stops (x.outcome host fuel m) ∨ ∃ k, x.outcome host fuel m =
            Terms.mapState Thread.machine (Thread.run host (host.load fuel) k 0 t))
  | within => ¬ Stops (x.outcome host fuel m) →
      ∀ e ∈ events, Advances typed e.machine (lastState (x.outcome host fuel m))

theorem Task.Covers.mono {known known' : Set (Query × Machine)} {e : Event}
    (h : x.Covers typed host fuel m known e) (hsub : known ⊆ known') :
    x.Covers typed host fuel m known' e := by
  obtain ⟨q, m', known₀, hmem, hsub₀, hrest⟩ := h
  exact ⟨q, m', known₀, hsub hmem, hsub₀.trans hsub, hrest⟩

theorem Task.Covers.before_end {known : Set (Query × Machine)} {e : Event}
    (h : x.Covers typed host fuel m known e) (hx : x.Behaves typed host fuel m)
    (hends : ¬ Stops (x.outcome host fuel m)) :
    Advances typed e.machine (lastState (x.outcome host fuel m)) := by
  obtain ⟨q, m', known', -, -, hasks, hadvance, -⟩ := h
  exact hadvance.trans (hx.answered hasks hends).2

theorem Task.Covers.precedes (hnatives : host.natives.Polite) {known : Set (Query × Machine)}
    {e : Event} {q : Query} (h : x.Covers typed host fuel m known e) (hx : x.Proper typed host m)
    (hasks : x.Asks host fuel m known q m') : e.Precedes typed (.asked x q m') := by
  obtain ⟨q₁, m₁, known₁, hmem, hsub, hasks₁, hadvance, hkind⟩ := h
  have hnext := ((hx.behaves hnatives fuel).follows hasks₁ hasks hsub hmem).2
  refine ⟨hadvance.trans hnext, fun name hstarts hagain => ?_⟩
  cases x with
  | load n =>
      cases q with
      | load _ => exact hagain
      | run method arguments =>
          -- the load of a class runs its initializer as the last thing
          cases hagain
          rcases hkind with rfl | hquiet
          · apply load_follows hnatives hx.inv hasks₁ hasks hsub hmem
            cases q₁ with
            | load _ => exact hstarts
            | run _ _ => trivial
          · have htaken : m₁.Taken name := by
              right
              rw [(load_asked hnatives hx.inv hasks₁).2.2.1]
              exact List.mem_cons_self
            exact hquiet name htaken hstarts
  | request _ => exact hagain
  | run _ _ => exact hagain
  | step _ _ => exact hagain

/-- A task that asks starts an initializer only if the class is new. -/
theorem Task.Proper.starts (hnatives : host.natives.Polite) (hx : x.Proper typed host m)
    {known : Set (Query × Machine)} {q : Query} (hasks : x.Asks host fuel m known q m')
    {name : String} (hstarts : (Event.asked x q m').Starts name) :
    ¬ m.Taken name ∧ ∃ s, m'.standing? name = some s := by
  cases x with
  | load n =>
      cases q with
      | load _ => exact hstarts.elim
      | run method arguments =>
          cases hstarts
          obtain ⟨hnone, hnew, -, hown⟩ := load_asked hnatives hx.inv hasks
          obtain ⟨c, _, hstanding, -, -⟩ := hown trivial
          refine ⟨fun htaken => ?_, _, hstanding⟩
          rcases htaken with ⟨s, hs⟩ | hmem
          · rw [hnone] at hs
            cases hs
          · exact hnew hmem
  | request _ => exact hstarts.elim
  | run _ _ => exact hstarts.elim
  | step _ _ => exact hstarts.elim

structure Unfolded (typed : Prop) (host : Host) (fuel : Nat) (x : Task) (m : Machine)
    (stage : Stage) (events : List Event) : Prop where
  chronicle : Chronicle host.path typed m events
  fits : stage.Fits typed host fuel x m events

namespace Unfolded

variable {stage : Stage} {known : Set (Query × Machine)} {q : Query} {t t' : Thread}

theorem stepping (h : Unfolded typed host fuel x m (.running t) events)
    (hinner : Unfolded typed host fuel (.step t.frames t.result) t.machine stage inner) :
    Chronicle host.path typed m (events ++ inner) := by
  obtain ⟨-, hrel, hevents, -⟩ := h.fits
  exact h.chronicle.append hinner.chronicle hevents (.of_extends hrel)
    (hrel.1.loading ▸ List.Subset.refl _)

theorem step_proper (h : Unfolded typed host fuel x m (.running t) events) :
    (Task.step t.frames t.result).Proper typed host t.machine := by
  refine ⟨h.fits.1.1, fun heq => ?_⟩
  cases heq
  exact h.fits.1.2

section

variable (hnatives : host.natives.Polite)

include hnatives

theorem before_end (hx : x.Proper typed host m) (h : Unfolded typed host fuel x m stage events)
    (hends : ¬ Stops (x.outcome host fuel m)) :
    ∀ e ∈ events, Advances typed e.machine (lastState (x.outcome host fuel m)) := by
  have hbehaves := hx.behaves hnatives fuel
  intro e he
  cases stage with
  | going known => exact (h.fits e he).before_end hbehaves hends
  | waiting known q m' =>
      obtain ⟨hasks, earlier, rfl, hearlier⟩ := h.fits
      rcases List.mem_append.mp he with he | he
      · exact (hearlier e he).before_end hbehaves hends
      · obtain ⟨hgoes, hend⟩ := hbehaves.answered hasks hends
        have hserves := serving hnatives fuel q m' (hbehaves.asked hasks).1
        rw [List.mem_singleton.mp he]
        exact Advances.trans (.of_extends (hserves.rel hgoes)) hend
  | running t =>
      obtain ⟨hinv, -, hevents, hstops | ⟨k, hk⟩⟩ := h.fits
      · exact absurd hstops hends
      · rw [hk, (stops_mapState _ _).1] at hends
        rw [hk, (stops_mapState _ _).2]
        have hrun := Conduct.run_ends (hnatives.obeys conduct_free) (conduct_honors hnatives fuel)
          hinv k
        exact (hevents e he).trans (.of_extends (hrun.rel hends))
  | within => exact h.fits hends e he

theorem ask (hx : x.Proper typed host m) (h : Unfolded typed host fuel x m (.going known) events)
    (hasks : x.Asks host fuel m known q m') :
    Unfolded typed host fuel x m (.waiting known q m') (events ++ [.asked x q m']) := by
  obtain ⟨hinv, hadvance, -⟩ := (hx.behaves hnatives fuel).asked hasks
  refine ⟨h.chronicle.snoc hinv hadvance ?_ ?_ ?_ ?_, hasks, events, rfl, h.fits⟩
  · exact fun a ha => (h.fits a ha).precedes hnatives hx hasks
  · exact fun name htaken hstarts => (hx.starts hnatives hasks hstarts).1 htaken
  · exact fun name hstarts => (hx.starts hnatives hasks hstarts).2
  · intro _ _ _ heq
    cases heq

theorem answering {fuel' : Nat} (hx : x.Proper typed host m)
    (h : Unfolded typed host fuel x m (.waiting known q m') events)
    (hinner : Unfolded typed host fuel' q.task m' stage inner) :
    Chronicle host.path typed m (events ++ inner) := by
  obtain ⟨hasks, earlier, rfl, hearlier⟩ := h.fits
  obtain ⟨-, hadvance, hloading⟩ := (hx.behaves hnatives fuel).asked hasks
  refine h.chronicle.append hinner.chronicle (fun e he => ?_) hadvance hloading
  rcases List.mem_append.mp he with he | he
  · exact ((hearlier e he).precedes hnatives hx hasks).1
  · rw [List.mem_singleton.mp he]
    exact Advances.refl _

theorem answer {fuel' : Nat} (hx : x.Proper typed host m)
    (h : Unfolded typed host fuel x m (.waiting known q m') events) (hfuel : q.Within fuel fuel')
    (hinner : Unfolded typed host fuel' q.task m' stage inner)
    (hgoes : ¬ Stops (host.oracle fuel q m')) :
    Unfolded typed host fuel x m (.going (insert (q, m') known))
      (events ++ inner ++ [.answered q m' (lastState (host.oracle fuel q m'))]) := by
  have hchronicle := answering hnatives hx h hinner
  obtain ⟨hasks, earlier, rfl, hearlier⟩ := h.fits
  obtain ⟨hinv, hadvance, -⟩ := (hx.behaves hnatives fuel).asked hasks
  have hserves := serving hnatives fuel q m' hinv
  have hrel := Conduct.Serves.rel hserves hgoes
  have hinside : ∀ e ∈ inner, Advances typed e.machine (lastState (host.oracle fuel q m')) := by
    have houtcome := hfuel.outcome host m'
    intro e he
    rw [← houtcome.2]
    exact before_end hnatives (q.proper hinv) hinner (houtcome.1.not.mpr hgoes) e he
  -- what belongs to the question is over with its answer
  have hthis {e : Event} (he : Advances typed e.machine (lastState (host.oracle fuel q m')))
      (hkind : e = .asked x q m' ∨ ∀ name, m'.Taken name → ¬ e.Starts name) :
      x.Covers typed host fuel m (insert (q, m') known) e :=
    ⟨q, m', known, Set.mem_insert _ _, Set.subset_insert _ _, hasks, he, hkind⟩
  constructor
  · apply hchronicle.snoc_idle
    · exact Conduct.Serves.inv hserves hgoes
    · exact hadvance.trans (.of_extends hrel)
    · intro e he
      simp only [List.mem_append, List.mem_singleton] at he
      rcases he with (he | rfl) | he
      · exact ((hearlier e he).precedes hnatives hx hasks).1.trans (.of_extends hrel)
      · exact .of_extends hrel
      · exact hinside e he
    · exact fun _ => id
    · intro q' a b heq
      cases heq
      exact hrel.1.loading
  · intro e he
    simp only [List.mem_append, List.mem_singleton] at he
    rcases he with ((he | rfl) | he) | rfl
    · exact (hearlier e he).mono (Set.subset_insert _ _)
    · exact hthis (.of_extends hrel) (.inl rfl)
    · exact hthis (hinside e he) (.inr fun name htaken => hinner.chronicle.quiet name htaken e he)
    · exact hthis (Advances.refl _) (.inr fun _ _ => id)

theorem enter {method : Method} {arguments : List Value}
    (hx : (Task.run method arguments).Proper typed host m) (htakes : method.Takes arguments)
    (hpush : Thread.pushFrame host method (OperandStack.ofValues arguments).toList ⟨m, [], none⟩ =
      .ok () t) :
    Unfolded typed host fuel (.run method arguments) m (.running t) [] := by
  have hpushed := ((Conduct.pushFrame_speaks (K := conduct host.path typed none) host method
    (OperandStack.ofValues arguments).toList ⟨m, [], none⟩ ⟨hx.inv, List.forall_mem_nil _⟩
      trivial).outcome (Conduct.manner_chains _) (conduct_honors hnatives fuel)).1
  dsimp only at hpushed
  rw [hpush] at hpushed
  refine ⟨.nil, hpushed.1, hpushed.2.1, List.forall_mem_nil _, .inr ⟨fuel, ?_⟩⟩
  exact Thread.invoke_of_push htakes hpush

theorem step (h : Unfolded typed host fuel x m (.running t) events) (hframes : t.frames ≠ [])
    (hinner : Unfolded typed host fuel (.step t.frames t.result) t.machine stage inner)
    (hstep : Thread.step host (host.load fuel) 0 t = .ok () t') :
    Unfolded typed host fuel x m (.running t') (events ++ inner ++ [.executed t'.machine]) := by
  obtain ⟨hinv, hrel, hevents, houtcome⟩ := h.fits
  have hends := Conduct.step_ends (hnatives.obeys conduct_free) (conduct_honors hnatives fuel) hinv
  rw [hstep] at hends
  obtain ⟨hinv', hrel', -⟩ := hends
  have hwhole : (Task.step t.frames t.result).outcome host fuel t.machine = .ok () t'.machine :=
    congrArg (Terms.mapState Thread.machine) hstep
  have hnow : ∀ e ∈ events ++ inner, Advances typed e.machine t'.machine := by
    refine List.forall_mem_append.mpr ⟨?_, ?_⟩
    · exact fun e he => (hevents e he).trans (.of_extends hrel')
    · have hinside := before_end hnatives h.step_proper hinner (by rw [hwhole]; exact id)
      rwa [hwhole] at hinside
  have hafter := (conduct host.path typed none).rel_trans hrel hrel'
  refine ⟨?_, hinv', hafter, ?_, ?_⟩
  · apply (h.stepping hinner).snoc_idle (e := .executed t'.machine) hinv'.1 (.of_extends hafter)
      hnow (fun _ => id)
    intro _ _ _ heq
    cases heq
  · exact List.forall_mem_append.mpr ⟨hnow, List.forall_mem_singleton.mpr (Advances.refl _)⟩
  · rcases houtcome with hstops | ⟨k, hk⟩
    · exact .inl hstops
    · cases k with
      | zero =>
          rw [hk]
          exact .inl trivial
      | succ k => exact .inr ⟨k, by rw [hk, Thread.run_of_step hframes hstep]⟩

theorem stepping_end (h : Unfolded typed host fuel x m (.running t) events)
    (hframes : t.frames ≠ [])
    (hinner : Unfolded typed host fuel (.step t.frames t.result) t.machine stage inner)
    (hends : ¬ Stops (x.outcome host fuel m)) :
    ∀ e ∈ inner, Advances typed e.machine (lastState (x.outcome host fuel m)) := by
  obtain ⟨hinv, -, -, houtcome⟩ := h.fits
  rcases houtcome with hstops | ⟨k, hk⟩
  · exact absurd hstops hends
  · rw [hk, (stops_mapState _ _).1] at hends
    rw [hk, (stops_mapState _ _).2]
    obtain ⟨hgoes, hafter⟩ := Conduct.run_after_step (hnatives.obeys conduct_free)
      (conduct_honors hnatives fuel) hinv hframes hends
    have hwhole := stops_mapState Thread.machine (Thread.step host (host.load fuel) 0 t)
    intro e he
    have hinside := before_end hnatives h.step_proper hinner (hwhole.1.not.mpr hgoes) e he
    exact (hwhole.2 ▸ hinside).trans (.of_extends hafter)

end

end Unfolded

/-- The events of a task are in order. -/
theorem Unfolds.unfolded (hnatives : host.natives.Polite) {stage : Stage}
    (h : Unfolds host fuel x m stage events) (hx : x.Proper typed host m) :
    Unfolded typed host fuel x m stage events := by
  induction h with
  | start fuel x m => exact ⟨.nil, List.forall_mem_nil _⟩
  | ask _ hasks ih => exact (ih hx).ask hnatives hx hasks
  | answer _ hfuel _ hgoes ih ihinner =>
      have hinv := ((hx.behaves hnatives _).asked (ih hx).fits.1).1
      exact (ih hx).answer hnatives hx hfuel (ihinner (Query.proper _ hinv)) hgoes
  | @answering fuel fuel' x m m' known q stage events inner _ hfuel _ ih ihinner =>
      have hasks := (ih hx).fits.1
      have hinv := ((hx.behaves hnatives fuel).asked hasks).1
      have hinner := ihinner (q.proper hinv)
      refine ⟨(ih hx).answering hnatives hx hinner, fun hends => ?_⟩
      obtain ⟨hgoes, hend⟩ := (hx.behaves hnatives fuel).answered hasks hends
      have houtcome := hfuel.outcome host m'
      refine List.forall_mem_append.mpr ⟨(ih hx).before_end hnatives hx hends, fun e he => ?_⟩
      have hinside := hinner.before_end hnatives (q.proper hinv) (houtcome.1.not.mpr hgoes) e he
      exact (houtcome.2 ▸ hinside).trans hend
  | enter htakes hpush => exact .enter hnatives hx htakes hpush
  | step _ hframes _ hstep ih ihinner =>
      exact (ih hx).step hnatives hframes (ihinner (ih hx).step_proper) hstep
  | stepping _ hframes _ ih ihinner =>
      have hinner := ihinner (ih hx).step_proper
      refine ⟨(ih hx).stepping hinner, fun hends => ?_⟩
      exact List.forall_mem_append.mpr ⟨(ih hx).before_end hnatives hx hends,
        (ih hx).stepping_end hnatives hframes hinner hends⟩

/-!
# Whole histories
-/

theorem Task.Proper.request (hinv : (conduct host.path typed none).inv m) (r : Request) :
    (Task.request r).Proper typed host m := by
  refine ⟨hinv, fun heq => ?_⟩
  cases heq

theorem Finishes.ends_at {α : Type} {x : MachineM α} (h : Finishes x m m') :
    ¬ Stops (x m) ∧ lastState (x m) = m' := by
  rcases h with ⟨a, ha⟩ | ⟨f, hf⟩
  · rw [ha]
    exact ⟨id, rfl⟩
  · rw [hf]
    exact ⟨id, rfl⟩

theorem Finishes.outcome {r : Request} (h : Finishes (r.run host fuel) m m') :
    ¬ Stops ((Task.request r).outcome host fuel m) ∧
      lastState ((Task.request r).outcome host fuel m) = m' := by
  have hrun : (Task.request r).outcome host fuel m = r.run host fuel m :=
    congrFun (Request.via_oracle host fuel r) m
  rw [hrun]
  exact h.ends_at

structure Rested (host : Host) (typed : Prop) (events : List Event) (m : Machine) : Prop where
  chronicle : Chronicle host.path typed Machine.empty events
  inv : (conduct host.path typed none).inv m
  after : Advances typed Machine.empty m
  now : ∀ e ∈ events, Advances typed e.machine m

theorem Rested.rest (h : Chronicle host.path typed Machine.empty events)
    (hinv : (conduct host.path typed none).inv m) (hafter : Advances typed Machine.empty m)
    (hnow : ∀ e ∈ events, Advances typed e.machine m) :
    Rested host typed (events ++ [.rested m]) m := by
  refine ⟨?_, hinv, hafter, ?_⟩
  · apply h.snoc_idle (e := .rested m) hinv hafter hnow (fun _ => id)
    intro _ _ _ heq
    cases heq
  · exact List.forall_mem_append.mpr ⟨hnow, List.forall_mem_singleton.mpr (Advances.refl m)⟩

theorem Rested.append (h : Rested host typed events m)
    (hinner : Chronicle host.path typed m inner) :
    Chronicle host.path typed Machine.empty (events ++ inner) :=
  h.chronicle.append hinner h.now h.after (List.nil_subset _)

section

variable (hnatives : host.natives.Polite) {writes : Machine → Machine → Prop}
  (hwrites : ∀ {m m'}, (conduct host.path typed none).inv m → writes m m' →
    (conduct host.path typed none).inv m' ∧ Advances typed m m')

include hnatives hwrites

theorem Rests.rested (h : Rests host writes events m) : Rested host typed events m := by
  induction h with
  | empty =>
      have hinv : (conduct host.path typed none).inv Machine.empty :=
        ⟨Orderly.empty, Registry.empty, fun _ => Sound.empty, nofun⟩
      exact .rest .nil hinv (Advances.refl _) (List.forall_mem_nil _)
  | write _ hwrite ih =>
      obtain ⟨hinv, hadvance⟩ := hwrites ih.inv hwrite
      exact .rest ih.chronicle hinv (ih.after.trans hadvance) fun e he =>
        (ih.now e he).trans hadvance
  | @request fuel m m' r stage events inner _ hinner hend ih =>
      obtain ⟨hgoes, hlast⟩ := hend.outcome
      have hproper := Task.Proper.request ih.inv r
      have hunfolded := hinner.unfolded hnatives hproper
      have hends := (hproper.behaves hnatives fuel).ends
      have hinv := hends.inv hgoes
      have hrel := hends.rel hgoes
      have hinside := hunfolded.before_end hnatives hproper hgoes
      rw [hlast] at hinv hrel hinside
      refine .rest (ih.append hunfolded.chronicle) hinv (ih.after.trans (.of_extends hrel)) ?_
      exact List.forall_mem_append.mpr
        ⟨fun e he => (ih.now e he).trans (.of_extends hrel), hinside⟩

/-- The events of a history are in order. -/
theorem History.chronicle (h : History host writes events) :
    Chronicle host.path typed Machine.empty events := by
  obtain ⟨fuel, r, m, stage, before, inner, hrests, hinner, rfl⟩ := h
  have hrested := hrests.rested hnatives hwrites
  exact hrested.append (hinner.unfolded hnatives (.request hrested.inv r)).chronicle

end

end Bytecode
