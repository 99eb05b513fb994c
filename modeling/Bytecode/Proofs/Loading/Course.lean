import Bytecode.Proofs.Loading.Conduct

/-!
# The course of a load

A load asks for the supertypes of its class, registers the class, asks for what its object and its
constants need, and at last asks for the static initializer to be run, if there is one.  All the
time its own class is marked as being loaded.
-/

namespace Bytecode

open Machine Scene

variable {α : Type} {path : ClassPath} {typed closed : Prop} {m₀ m m' : Machine} {name : String}
  {c : Class} {last : Moment}

/-!
# Questions of a load
-/

def Moment.AfterRun : Moment → Prop
  | answered (.run _ _) _ => True
  | _ => False

def Initializes (name : String) (q : Query) (m : Machine) : Prop :=
  ∃ c method, m.standing? name = some (c, .linked) ∧
    c.declaredMethod? "<clinit>" "()V" = some method ∧ q = .run method []

/-- How the load of a class goes that was asked for in `m₀`.  As long as it is not `closed`, no code
has been run. -/
def course (path : ClassPath) (typed : Prop) (m₀ : Machine) (name : String) (closed : Prop) :
    Manner where
  asks last q m := (conduct path typed none).inv m ∧ Advances typed last.machine m ∧
    m.loading = name :: m₀.loading ∧ (q.IsRun → Initializes name q m) ∧ ¬ last.AfterRun
  ends last m := Advances typed last.machine m ∧ (¬ closed → ¬ last.AfterRun)
  serves := (conduct path typed none).Serves

theorem course_chains : (course path typed m₀ name True).Chains where
  asks := by
    rintro last q m r q' m' ⟨-, hadvance, -, -, hrun⟩ hserves hr ⟨hinv, hnext, hloading, hown, -⟩
    exact ⟨hinv, hadvance.trans ((Advances.of_extends (Conduct.Serves.rel hserves hr)).trans hnext),
      hloading, hown, hrun⟩
  ends := by
    rintro last q m r m' ⟨-, hadvance, -, -, -⟩ hserves hr ⟨hend, -⟩
    exact ⟨hadvance.trans ((Advances.of_extends (Conduct.Serves.rel hserves hr)).trans hend),
      fun hopen => absurd trivial hopen⟩

abbrev during (path : ClassPath) (typed : Prop) (m₀ : Machine) (name : String) : Conduct :=
  conduct path typed (some (name :: m₀.loading))

theorem not_afterRun {q : Query} {names : List String}
    (h : q.IsRun → (conduct path typed (some names)).runs) : ¬ (Moment.answered q m).AfterRun := by
  cases q with
  | load n => exact id
  | run method arguments => exact absurd (h trivial) no_runs

/-- Whatever is asked on the way, before code is run, belongs to the course of the load. -/
theorem Dialogue.during {F : EStateM.Result Halt Machine α → Prop}
    {x : Oracle → EStateM.Result Halt Machine α}
    (h : Dialogue (during path typed m₀ name).manner id F (.begun m) x)
    (hlast : Advances typed last.machine m) (hrun : ¬ last.AfterRun) :
    Dialogue (course path typed m₀ name False) id F last x := by
  apply h.recast
  · rintro q m' ⟨hinv, hrel, hruns⟩
    refine ⟨(inv_of_stacked hinv).1, hlast.trans (Advances.of_extends hrel),
      (inv_of_stacked hinv).2, fun hq => absurd (hruns hq) no_runs, hrun⟩
  · intro m' hrel
    exact ⟨hlast.trans (Advances.of_extends hrel), fun _ => hrun⟩
  · rintro last₁ q m₁ m₂ q' m' ⟨-, -, hruns⟩ ⟨hinv, hrel, hruns'⟩
    refine ⟨(inv_of_stacked hinv).1, Advances.of_extends hrel, (inv_of_stacked hinv).2,
      fun hq => absurd (hruns' hq) no_runs, ?_⟩
    exact not_afterRun hruns
  · rintro last₁ q m₁ m₂ m' ⟨-, -, hruns⟩ hrel
    exact ⟨Advances.of_extends hrel, fun _ => not_afterRun hruns⟩
  · rintro last₁ q m₁ r ⟨hinv, -, -⟩ hserves
    cases q with
    | load n => exact ⟨ends_stacked hserves.1 (inv_of_stacked hinv).2, hserves.2⟩
    | run method arguments => exact ends_stacked hserves (inv_of_stacked hinv).2

/-!
# The object of a class
-/

theorem reflected_sound (h : m.Sound) (hc : c.Honest) (name : String) :
    (reflected m c name).Sound ∧ Grows m (reflected m c name) := by
  have htyped : Instance.Typed { Instance.ofClass c with reflects := name } :=
    Instance.ofClass_typed hc
  obtain ⟨hpushed, hgrows⟩ := h.push (o := .ofInstance _) htyped
  constructor
  · exact hpushed.modifyEntry name fun e he _ => hpushed.classes e he
  · exact hgrows.trans (Grows.of_eq rfl)

def constantly (r : EStateM.Result Halt Machine Loaded) : Loader := fun _ _ => r

section

variable {K : Conduct} (hprompt : K.prompt) (hinv : K.inv m) {cls : Class} {s : ClassState}
  (hclass : m.standing? classClassName = some (cls, s))

include hprompt hinv hclass

theorem classObject_answered {r : EStateM.Result Halt Machine Loaded}
    (hunmade : m.registration? name >>= Entry.classObject = none)
    (hr : K.Serves (.load classClassName) m r) :
    Terms.Ends { K.toTerms with err := fun _ => s = .erroneous } (fun _ _ => True) m
        (classObject (constantly r) name m) ∧
      (¬ Stops (classObject (constantly r) name m) →
        K.rel (lastState r) (lastState (classObject (constantly r) name m))) := by
  rcases hr.2 hprompt (by decide) hclass with hstops | hanswer
  · obtain ⟨m', rfl⟩ := hstops.eq_error
    rw [classObject_of_error hunmade rfl]
    exact ⟨trivial, fun hgoes => absurd trivial hgoes⟩
  · by_cases hs : s = .erroneous
    · rw [if_pos hs] at hanswer
      subst hanswer
      rw [classObject_of_error hunmade rfl]
      exact ⟨⟨hinv, K.rel_refl m, hs⟩, fun _ => K.rel_refl m⟩
    · rw [if_neg hs] at hanswer
      subst hanswer
      rw [classObject_of_ok hunmade rfl]
      have hupholds := reflected_upholds hunmade cls
      have hkept := K.work hinv (reflected_works m cls name) hupholds fun ht =>
        reflected_sound (K.sound hinv ht) (K.honest hr.1.2.2 ht) name
      exact ⟨⟨hkept.1, hkept.2, trivial⟩, fun _ => hkept.2⟩

theorem classObject_dialogue (name : String) :
    Dialogue K.manner id
      (Terms.Ends { K.toTerms with err := fun _ => s = .erroneous } (fun _ _ => True) m)
      (.begun m) fun o => classObject o.load name m := by
  cases hmade : m.registration? name >>= Entry.classObject with
  | some address =>
      have hhere (o : Oracle) : classObject o.load name m = .ok address m := by
        unfold classObject
        rw [get_bind, hmade]
        rfl
      simp only [hhere]
      exact .done (fun _ => K.rel_refl m) ⟨hinv, K.rel_refl m, trivial⟩
  | none =>
      -- nothing but the answer to one question matters
      have hcongr (o : Oracle) : classObject o.load name m =
          classObject (constantly (o (.load classClassName) m)) name m := by
        apply classObject_congr
        rfl
      simp only [hcongr]
      have hask : K.manner.asks (.begun m) (.load classClassName) m :=
        ⟨hinv, K.rel_refl m, nofun⟩
      apply Dialogue.ask (q := .load classClassName)
        (k := fun r _ => classObject (constantly r) name m) hask
      · exact fun m' => ⟨m', fun _ => classObject_of_error hmade rfl⟩
      · intro r hr
        obtain ⟨hends, hrel⟩ := classObject_answered hprompt hinv hclass hmade hr
        exact .done hrel hends

end

/-!
# Ends of a load
-/

/-- The machine `m` has registered a class that was asked for in `m₀`, and has not finished loading
it. -/
structure Settling (path : ClassPath) (typed : Prop) (m₀ : Machine) (c : Class) (m : Machine) :
    Prop where
  inv : (conduct path typed none).inv m
  registers : Registers m₀ c.name c m
  grows : typed → Grows m₀ m
  absent : m₀.standing? c.name = none
  free : c.name ∉ m₀.loading

namespace Settling

variable (h : Settling path typed m₀ c m)

include h

theorem during_inv : (during path typed m₀ c.name).inv m :=
  stacked_inv h.inv h.registers.loading

theorem goOn (hinv : (conduct path typed none).inv m')
    (hrel : Extends m m' ∧ (typed → Grows m m')) : Settling path typed m₀ c m' :=
  ⟨hinv, h.registers.extends hrel.1, fun ht => (h.grows ht).trans (hrel.2 ht), h.absent, h.free⟩

theorem settled {s : ClassState} (hs : s ≠ .linked) :
    (conduct path typed none).inv ((m.setState c.name s).finish c.name) ∧
      (conduct path typed none).rel m₀ ((m.setState c.name s).finish c.name) ∧
        ((m.setState c.name s).finish c.name).standing? c.name = some (c, s) := by
  have horder : (order path False).inv m := ⟨h.inv.1, False.elim⟩
  obtain ⟨hinv, hext, hown⟩ := h.registers.finish_settled h.free horder h.absent hs
  refine ⟨⟨hinv.1, ?_, fun ht => ?_, nofun⟩, ⟨hext, fun ht => ?_⟩, hown⟩
  · exact (h.inv.2.1.setState c.name s).of_eq (fun _ => rfl) fun _ => rfl
  · exact ((h.inv.2.2.1 ht).setState c.name s).finish c.name
  · exact (h.grows ht).trans (Grows.of_eq rfl)

theorem unsettled (hfailed : m.ClassFailed) :
    (conduct path typed none).inv (m.finish c.name) ∧
      (conduct path typed none).rel m₀ (m.finish c.name) := by
  have horder : (order path False).inv m := ⟨h.inv.1, False.elim⟩
  obtain ⟨hinv, hext⟩ := h.registers.finish_linked horder hfailed
  refine ⟨⟨hinv.1, ?_, fun ht => (h.inv.2.2.1 ht).finish c.name, nofun⟩, hext, h.grows⟩
  exact h.inv.2.1.of_eq (fun _ => rfl) fun _ => rfl

end Settling

/-!
# Initialization
-/

def runDeclared (invoke : Method → MachineM Unit) (c : Class) : MachineM Unit :=
  match c.declaredMethod? "<clinit>" "()V" with
  | some method => invoke method
  | none => pure ()

theorem runInitializer_eq {load : Loader} {invoke : Method → MachineM Unit} {pool : Pool}
    (hpool : m.pool? c.name = some pool) :
    runInitializer load invoke c m =
      andThen (fun _ => runDeclared invoke c) (assignConstants load pool 0 c.staticFields m) := by
  unfold runInitializer
  rw [get_bind, hpool, ← bind_eq_andThen]
  rfl

theorem runDeclared_dialogue (h : Settling path typed m₀ c m)
    (hlast : Advances typed last.machine m) (hrun : ¬ last.AfterRun) :
    Dialogue (course path typed m₀ c.name True) id
      ((conduct path typed none).Ends (fun _ _ => True) m) last
      fun o => runDeclared o.initializer c m := by
  have hrefl := (conduct path typed none).rel_refl m
  cases hmethod : c.declaredMethod? "<clinit>" "()V" with
  | none =>
      have hnothing (o : Oracle) : runDeclared o.initializer c m = .ok () m := by
        unfold runDeclared
        rw [hmethod]
        rfl
      simp only [hnothing]
      exact .done (fun _ => ⟨hlast, nofun⟩) ⟨h.inv, hrefl, trivial⟩
  | some method =>
      have hinvoke (o : Oracle) : runDeclared o.initializer c m =
          andThen (fun _ => pure ()) (o (.run method []) m) := by
        unfold runDeclared
        rw [hmethod]
        exact bind_eq_andThen _ _ m
      simp only [hinvoke]
      -- the class is registered and not initialized yet, so its initializer may be asked for
      have hask : (course path typed m₀ c.name True).asks last (.run method []) m :=
        ⟨h.inv, hlast, h.registers.loading,
          fun _ => ⟨c, method, h.registers.own, hmethod, rfl⟩, hrun⟩
      apply Dialogue.ask (q := .run method [])
        (k := fun r _ => andThen (fun _ => pure ()) r) hask
      · exact fun m' => ⟨m', fun _ => rfl⟩
      · intro r hr
        cases r with
        | ok value m' => exact .done (fun _ => ⟨Advances.refl m', nofun⟩) hr
        | error e m' =>
            cases e with
            | fault f => exact .done (fun _ => ⟨Advances.refl m', nofun⟩) hr
            | outOfFuel => exact .done (fun hgoes => absurd trivial hgoes) trivial

/-- The last thing that a load asks for is the static initializer of its class. -/
theorem runInitializer_dialogue (h : Settling path typed m₀ c m)
    (hlast : Advances typed last.machine m) (hrun : ¬ last.AfterRun) :
    Dialogue (course path typed m₀ c.name True) id
      ((conduct path typed none).Ends (fun _ _ => True) m) last
      fun o => runInitializer o.load o.initializer c m := by
  obtain ⟨file, -, hlinks, hpool⟩ := h.inv.2.1 c.name c .linked h.registers.own
  have hconstants := (constants_talks path typed (some (c.name :: m₀.loading)) file.pool
    hlinks.owner m h.during_inv h.registers.own).during hlast hrun
  simp only [runInitializer_eq hpool]
  apply hconstants.follow (N := course path typed m₀ c.name True)
    (k := fun r o => andThen (fun _ => runDeclared o.initializer c) r) id id
  · exact fun m' => ⟨m', fun _ => rfl⟩
  · intro last' r hend hr
    cases r with
    | ok a m' =>
        obtain ⟨hinv', hrel, -⟩ := hr
        obtain ⟨hadvance, hrun'⟩ := hend id
        have hsettling := h.goOn (inv_of_stacked hinv').1 hrel
        apply (runDeclared_dialogue hsettling hadvance (hrun' id)).mono
        intro r' hr'
        exact hr'.of_rel hrel
    | error e m' =>
        cases e with
        | fault f => exact .done (fun _ => ⟨(hend id).1, nofun⟩) (ends_of_stacked hr)
        | outOfFuel => exact .done (fun hgoes => absurd trivial hgoes) trivial

/-!
# Whole loads
-/

def finishing (name : String) :
    EStateM.Result Halt Machine Class → EStateM.Result Halt Machine Loaded
  | .ok c m => .ok (.ofClass c) (m.finish name)
  | .error e m => .error e (m.finish name)

def settling (c : Class) : EStateM.Result Halt Machine Unit → EStateM.Result Halt Machine Loaded
  | .ok _ m => .ok (.ofClass c) ((m.setState c.name .initialized).finish c.name)
  | .error (.fault f) m => .error (.fault f) ((m.setState c.name .erroneous).finish c.name)
  | .error .outOfFuel m => .error .outOfFuel (m.finish c.name)

theorem finishing_eq_settling (load : Loader) (invoke : Method → MachineM Unit) (c : Class)
    (m : Machine) :
    finishing c.name ((enterInitialized load invoke c >>= fun _ => pure c) m) =
      settling c (runInitializer load invoke c m) := by
  rw [bind_eq_andThen]
  unfold enterInitialized
  cases runInitializer load invoke c m with
  | ok a m' => rfl
  | error e m' => cases e <;> rfl

theorem Settling.advances (h : Settling path typed m₀ c m) (s : ClassState) :
    Advances typed m ((m.setState c.name s).finish c.name) :=
  ⟨(Evolves.setState h.registers.own s).trans (Evolves.finish _ _), fun _ => Grows.of_eq rfl⟩

theorem enterInitialized_dialogue (h : Settling path typed m₀ c m)
    (hlast : Advances typed last.machine m) (hrun : ¬ last.AfterRun) :
    Dialogue (course path typed m₀ c.name True) id
      ((conduct path typed none).Ends ((conduct path typed none).loaded c.name) m₀) last
      fun o =>
        finishing c.name ((enterInitialized o.load o.initializer c >>= fun _ => pure c) m) := by
  simp only [finishing_eq_settling]
  apply (runInitializer_dialogue h hlast hrun).follow (k := fun r _ => settling c r) id id
  · exact fun m' => ⟨m'.finish c.name, fun _ => rfl⟩
  · intro last' r hend hr
    cases r with
    | ok a m' =>
        have hsettling := h.goOn hr.1 hr.2.1
        obtain ⟨hinv, hrel, hown⟩ := hsettling.settled (s := .initialized) nofun
        refine .done (fun _ => ⟨(hend id).1.trans (hsettling.advances _), nofun⟩)
          ⟨hinv, hrel, ⟨.initialized, hown, nofun⟩, fun ht => ?_⟩
        exact (hinv.2.2.1 ht).honest hown
    | error e m' =>
        cases e with
        | outOfFuel => exact .done (fun hgoes => absurd trivial hgoes) trivial
        | fault f =>
            have hsettling := h.goOn hr.1 hr.2.1
            obtain ⟨hinv, hrel, -⟩ := hsettling.settled (s := .erroneous) nofun
            exact .done (fun _ => ⟨(hend id).1.trans (hsettling.advances _), nofun⟩)
              ⟨hinv, hrel, trivial⟩

theorem settle_dialogue (h : Settling path typed m₀ c m)
    (hlast : Advances typed last.machine m) (hrun : ¬ last.AfterRun) :
    Dialogue (course path typed m₀ c.name True) id
      ((conduct path typed none).Ends ((conduct path typed none).loaded c.name) m₀) last
      fun o => finishing c.name (settle o.load o.initializer c m) := by
  cases hclass : m.standing? classClassName with
  | none =>
      simp only [settle_without hclass]
      exact enterInitialized_dialogue h hlast hrun
  | some p =>
      simp only [settle_classObject hclass, bind_eq_andThen (classObject _ _)]
      apply ((classObject_dialogue trivial h.during_inv hclass c.name).during hlast hrun).follow
        (N := course path typed m₀ c.name True)
        (k := fun r o => finishing c.name (andThen
          (fun _ => enterInitialized o.load o.initializer c >>= fun _ => pure c) r)) id id
      · exact fun m' => ⟨m'.finish c.name, fun _ => rfl⟩
      · intro last' r hend hr
        cases r with
        | ok a m' =>
            obtain ⟨hadvance, hrun'⟩ := hend id
            have hsettling := h.goOn (inv_of_stacked hr.1).1 hr.2.1
            exact enterInitialized_dialogue hsettling hadvance (hrun' id)
        | error e m' =>
            cases e with
            | outOfFuel => exact .done (fun hgoes => absurd trivial hgoes) trivial
            | fault f =>
                have hsettling := h.goOn (inv_of_stacked hr.1).1 hr.2.1
                -- the object for a class is refused only where the class of such objects has failed
                have hfailed : m'.ClassFailed := by
                  refine ⟨p.1, hr.2.1.1.standing ?_⟩
                  rw [hclass, ← hr.2.2]
                obtain ⟨hinv, hrel⟩ := hsettling.unsettled hfailed
                have hadvance : Advances typed m' (m'.finish c.name) :=
                  ⟨Evolves.finish _ _, fun _ => Grows.of_eq rfl⟩
                exact .done (fun _ => ⟨(hend id).1.trans hadvance, nofun⟩) ⟨hinv, hrel, trivial⟩

def register (load : Loader) (invoke : Method → MachineM Unit) (name : String) (file : ClassFile)
    (c : Class) : MachineM Class := do
  modify (·.registerPool name file.pool)
  let added ← modifyGet (·.registerClass c)
  if added then
    if (← get).isRegistered classClassName then
      let _ ← classObject load name
    enterInitialized load invoke c
    return c
  else
    match (← get).class? name with
    | some c => return c
    | none => illegal (.vanished name)

theorem define_eq_register {load : Loader} {invoke : Method → MachineM Unit} {file : ClassFile}
    (hread : readClassFile path name m = .ok file m) :
    define path load invoke name m =
      andThen (register load invoke name file) (link load file m) := by
  rw [← bind_eq_andThen]
  unfold define
  rw [bind_of_ok hread]
  rfl

theorem register_eq_settle {load : Loader} {invoke : Method → MachineM Unit} {file : ClassFile}
    (hnone : m.standing? c.name = none) (hpool : m.pool? c.name = none) :
    register load invoke c.name file c m = settle load invoke c (m.enter c file.pool) := by
  unfold register
  rw [modify_bind, modifyGet_bind, register_eq_enter hnone hpool]
  rfl

section

variable (hnone : m₀.standing? name = none)

include hnone

theorem begin_conduct (hinv : (conduct path typed none).inv m₀) :
    (during path typed m₀ name).inv (m₀.begin name) := by
  have horder : (order path False).inv m₀ := ⟨hinv.1, False.elim⟩
  have hbegin := begin_inv horder hnone False.elim
  apply stacked_inv _ rfl
  refine ⟨hbegin.1, ?_, fun ht => (hinv.2.2.1 ht).begin name, nofun⟩
  exact hinv.2.1.of_eq (fun _ => rfl) fun _ => rfl

theorem absent_conduct (h : (during path typed m₀ name).inv m)
    (hrel : (during path typed m₀ name).rel (m₀.begin name) m) :
    (conduct path typed none).inv (m.finish name) ∧
      (conduct path typed none).rel m₀ (m.finish name) := by
  have horder : (order path False).inv m := ⟨h.1, False.elim⟩
  obtain ⟨hfinish, hext⟩ := finish_absent horder hrel.1 hnone
  refine ⟨⟨hfinish.1, ?_, fun ht => (h.2.2.1 ht).finish name, nofun⟩, hext, fun ht => ?_⟩
  · exact h.2.1.of_eq (fun _ => rfl) fun _ => rfl
  · exact hrel.2 ht

theorem settling_of_link {file : ClassFile} (hfile : path.Declares c.name file)
    (hname : c.name = name) (hfree : name ∉ m₀.loading)
    (h : (during path typed m₀ name).inv m)
    (hrel : (during path typed m₀ name).rel (m₀.begin name) m) (hlinks : m.Links file c) :
    m.standing? c.name = none ∧ m.pool? c.name = none ∧
      Settling path typed m₀ c (m.enter c file.pool) := by
  subst hname
  have habsent : m.standing? c.name = none := hrel.1.absent List.mem_cons_self hnone
  have hpool : m.pool? c.name = none := h.1.pool?_eq_none habsent
  have hmem : c.name ∈ m.loading := by
    rw [hrel.1.loading]
    exact List.mem_cons_self
  have horder : (order path False).inv m := ⟨h.1, False.elim⟩
  refine ⟨habsent, hpool, ⟨(enter_inv horder habsent hpool hmem).1, ?_, fun ht => ?_, nofun⟩,
    Registers.enter hrel.1 habsent hpool hfree, hrel.2, hnone, hfree⟩
  · exact h.2.1.enter hfile hlinks habsent hpool
  · exact (h.2.2.1 ht).enter (hlinks.honest (h.2.2.1 ht)) file.pool

theorem fresh_dialogue (hinv : (conduct path typed none).inv m₀) (hfree : name ∉ m₀.loading) :
    Dialogue (course path typed m₀ name True) id
      ((conduct path typed none).Ends ((conduct path typed none).loaded name) m₀) (.begun m₀)
      fun o => finishing name (define path o.load o.initializer name (m₀.begin name)) := by
  have hbegin := begin_conduct hnone hinv
  have hadvance : Advances typed m₀ (m₀.begin name) :=
    ⟨Evolves.begin m₀ name, fun _ => Grows.of_eq rfl⟩
  have hfinish (m : Machine) : Advances typed m (m.finish name) :=
    ⟨Evolves.finish m name, fun _ => Grows.of_eq rfl⟩
  rcases readClassFile_cases path name (m₀.begin name) with ⟨file, hfile, hread⟩ | ⟨f, hread⟩
  · simp only [define_eq_register hread]
    have hlink : Dialogue (course path typed m₀ name False) id _ (.begun m₀) _ :=
      (link_talks path typed _ file (m₀.begin name) hbegin trivial).during hadvance id
    apply hlink.follow (N := course path typed m₀ name True)
      (k := fun r o => finishing name (andThen (register o.load o.initializer name file) r)) id id
    · exact fun m' => ⟨m'.finish name, fun _ => rfl⟩
    · intro last' r hend hr
      cases r with
      | error e m' =>
          cases e with
          | outOfFuel => exact .done (fun hgoes => absurd trivial hgoes) trivial
          | fault f =>
              obtain ⟨hinv', hrel'⟩ := absent_conduct hnone hr.1 hr.2.1
              exact .done (fun _ => ⟨(hend id).1.trans (hfinish m'), nofun⟩) ⟨hinv', hrel', trivial⟩
      | ok c m' =>
          obtain ⟨hinv', hrel', hlinks⟩ := hr
          have hname : c.name = name := hfile.name_eq hlinks.declarations
          subst hname
          -- linking registers supertypes, but not the class itself
          obtain ⟨habsent, hpool, hsettling⟩ :=
            settling_of_link hnone hfile rfl hfree hinv' hrel' hlinks
          obtain ⟨hlast, hrun⟩ := hend id
          simp only [andThen, register_eq_settle habsent hpool]
          refine settle_dialogue hsettling (hlast.trans ?_) (hrun id)
          exact ⟨Evolves.enter habsent hpool, fun _ => Grows.of_eq rfl⟩
  · have hdefine (o : Oracle) : define path o.load o.initializer name (m₀.begin name) =
        .error (.fault f) (m₀.begin name) := bind_of_error hread
    simp only [hdefine]
    obtain ⟨hinv', hrel'⟩ := absent_conduct hnone hbegin (Terms.rel_refl _ _)
    exact .done (fun _ => ⟨hadvance.trans (hfinish _), nofun⟩) ⟨hinv', hrel', trivial⟩

end

/-- Every load takes this course. -/
theorem load_dialogue (hinv : (conduct path typed none).inv m₀) (name : String) :
    Dialogue (course path typed m₀ name True) id
      ((conduct path typed none).Ends ((conduct path typed none).loaded name) m₀) (.begun m₀)
      fun o => loadWith path o.load o.initializer name m₀ := by
  have hrefl := (conduct path typed none).rel_refl m₀
  have hhere : ¬ False → Advances typed m₀ m₀ ∧ (¬ True → ¬ (Moment.begun m₀).AfterRun) := fun _ =>
    ⟨Advances.refl m₀, nofun⟩
  -- array types, registered classes and those being loaded need no question
  cases harray : Descriptor.isArray name with
  | true =>
      simp only [loadWith_array harray, bind_eq_andThen]
      have hends := Conduct.arrayClass_ends hinv name
      cases hclass : arrayClass name m₀ with
      | ok a m' =>
          rw [hclass] at hends
          exact .done (fun _ => ⟨.of_extends hends.2.1, nofun⟩)
            ⟨hends.1, hends.2.1, trivial, fun ht => ⟨hends.2.2.2.2 ht, hends.2.2.1⟩⟩
      | error e m' =>
          rw [hclass] at hends
          cases e with
          | fault f =>
              exact .done (fun _ => ⟨.of_extends hends.2.1, nofun⟩) ⟨hends.1, hends.2.1, trivial⟩
          | outOfFuel => exact .done (fun hgoes => absurd trivial hgoes) trivial
  | false =>
      cases hstanding : m₀.standing? name with
      | some p =>
          simp only [loadWith_registered harray hstanding]
          by_cases hs : p.2 = .erroneous
          · simp only [hs, if_true]
            exact .done hhere ⟨hinv, hrefl, trivial⟩
          · simp only [hs, if_false]
            refine .done hhere ⟨hinv, hrefl, ⟨p.2, hstanding, hs⟩, fun ht => ?_⟩
            exact (hinv.2.2.1 ht).honest hstanding
      | none =>
          by_cases hmem : name ∈ m₀.loading
          · simp only [loadWith_circular harray hstanding hmem]
            exact .done hhere ⟨hinv, hrefl, trivial⟩
          · have hfinishing (o : Oracle) : loadWith path o.load o.initializer name m₀ =
                finishing name (define path o.load o.initializer name (m₀.begin name)) :=
              loadWith_fresh harray hstanding hmem
            simp only [hfinishing]
            exact fresh_dialogue hstanding hinv hmem

end Bytecode
