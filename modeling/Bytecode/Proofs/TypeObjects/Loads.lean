import Bytecode.Proofs.Class.Covariance
import Bytecode.Proofs.Loading.Answers
import Bytecode.Proofs.TypeObjects.Requests

/-!
# Loads and answers of a host

A load makes the place of its type, and a place is empty when it is made.  Whatever a host is asked
upholds the objects of types, however deep loads and runs are nested in each other.
-/

namespace Bytecode

open Machine Scene

variable {α β : Type}

namespace TypeObjects

/-!
# Linking
-/

theorem readClassFile_talks (path : ClassPath) (name : String) :
    discretion.scene.Talks (fun _ => True) (fun file _ => file.name = name)
      fun _ => readClassFile path name := by
  apply Talks.of_ends
  intro m _ _
  rcases readClassFile_cases path name m with ⟨file, ⟨log, bytes, -, -, hname⟩, hread⟩ | ⟨f, hread⟩
  · rw [hread]
    exact ⟨trivial, .refl m, hname⟩
  · rw [hread]
    exact ⟨trivial, .refl m, trivial⟩

theorem link_talks (file : ClassFile) :
    discretion.scene.Talks (fun _ => True) (fun c _ => c.name = file.name)
      fun o => link o.load file := by
  have hinterface (name : String) : discretion.scene.Talks (fun _ => True)
      (fun _ _ => True ∧ True) fun o => loadInterface o.load file.name name :=
    (Conduct.loadInterface_talks discretion file.name name).mono (fun _ _ _ => trivial)
      fun _ _ _ _ => ⟨trivial, trivial⟩
  refine Talks.bind (Conduct.loadParent_talks discretion file).speaks fun parent =>
    Talks.bind (Talks.mapM (R := fun _ _ _ => True) (fun _ _ => trivial) fun name _ =>
      hinterface name).speaks fun interfaces =>
        Talks.bind (.liftMalformed (Declarations.ofFile_fails file) fun _ => trivial)
          fun d => .pure fun m _ hd => ?_
  obtain ⟨fields, methods, -, -, rfl⟩ := Declarations.ofFile_eq_ok hd.1
  rfl

/-!
# Initialization
-/

theorem runInitializer_speaks (c : Class) :
    discretion.scene.Speaks fun o => runInitializer o.load o.initializer c := by
  refine .get_bind fun m => ?_
  cases m.pool? c.name with
  | none => exact .fail trivial
  | some pool =>
      have hconstants : discretion.scene.Speaks fun o =>
          assignConstants o.load pool 0 c.staticFields :=
        Conduct.assignConstants_talks discretion (fun _ _ => trivial) pool
          fun _ _ _ _ _ _ _ _ => False.elim
      refine hconstants.bind fun _ => ?_
      cases c.declaredMethod? "<clinit>" "()V" with
      | none => exact .pure ()
      | some method =>
          exact (Conduct.run_query_speaks discretion trivial method []).bind fun _ => .pure ()

def entering (c : Class) : EStateM.Result Halt Machine Unit → EStateM.Result Halt Machine Unit
  | .ok _ m => .ok () (m.setState c.name .initialized)
  | .error (.fault f) m => .error (.fault f) (m.setState c.name .erroneous)
  | .error .outOfFuel m => .error .outOfFuel m

theorem setState_upholds (m : Machine) (name : String) (state : ClassState) :
    m.Upholds (m.setState name state) := by
  have hspares : m.Spares (m.setState name state) := .modifyEntry m name fun _ => ⟨rfl, rfl⟩
  exact hspares.upholds

theorem enterInitialized_speaks (c : Class) :
    discretion.scene.Speaks fun o => enterInitialized o.load o.initializer c := by
  apply (runInitializer_speaks c).finish (entering c) _ fun m => ⟨m, rfl⟩
  · intro m r hstops hr
    cases r with
    | ok a m' =>
        have hstate := setState_upholds m' c.name .initialized
        exact ⟨⟨trivial, hr.2.1.trans hstate, trivial⟩, hstate⟩
    | error e m' =>
        cases e with
        | outOfFuel => exact absurd trivial hstops
        | fault f =>
            have hstate := setState_upholds m' c.name .erroneous
            exact ⟨⟨trivial, hr.2.1.trans hstate, trivial⟩, hstate⟩
  · intro o m
    unfold enterInitialized entering
    rfl

/-!
# Whole loads
-/

theorem modify_speaks {g : Machine → Machine} (h : ∀ m : Machine, m.Upholds (g m)) :
    discretion.scene.Speaks fun _ => modify g :=
  .of_ends fun m _ _ => ⟨trivial, h m, trivial⟩

theorem registerPool_upholds (m : Machine) (name : String) (pool : Pool) :
    m.Upholds (m.registerPool name pool) := by
  unfold registerPool
  split
  · exact .refl m
  · exact .of_eq rfl rfl rfl rfl

theorem registerClass_talks (c : Class) :
    discretion.scene.Talks (fun _ => True) (fun _ m => (m.place? (.ofClass c.name)).isSome)
      fun _ => modifyGet (·.registerClass c) := by
  apply Talks.of_ends
  intro m _ _
  show discretion.Ends _ m (.ok (m.registerClass c).1 (m.registerClass c).2)
  unfold registerClass isRegistered
  cases hclass : m.registration? c.name with
  | some e =>
      refine ⟨trivial, .refl m, ?_⟩
      simp only [Option.isSome_some, if_true, place?, hclass, Option.map_some]
  | none =>
      have hplaces := place?_register hclass
      have hvacant : m.place? (.ofClass c.name) = none := by
        simp only [place?, hclass, Option.map_none]
      refine ⟨trivial, .open hvacant hplaces rfl rfl, ?_⟩
      simp only [Option.isSome_none, Bool.false_eq_true, if_false, hplaces, if_true,
        Option.isSome_some]

theorem define_talks (path : ClassPath) (name : String) :
    discretion.scene.Talks (fun _ => True)
      (fun c m => c.name = name ∧ (m.place? (.ofClass name)).isSome)
      fun o => define path o.load o.initializer name := by
  unfold define
  refine Talks.bind (readClassFile_talks path name) fun file => .assume fun _ _ hfile => ?_
  refine Talks.bind ((link_talks file).mono (fun _ _ _ => trivial) fun _ _ _ h => h) fun c =>
    .assume fun _ _ hc => ?_
  refine Talks.bind (modify_speaks fun m => registerPool_upholds m name file.pool).talks
    fun _ => Talks.bind (registerClass_talks c) fun added => ?_
  rw [hfile] at hc
  subst hc
  -- once the class has a place, everything that follows keeps it
  have hplace {m m' : Machine} (h : m.Upholds m') (hp : (m.place? (.ofClass c.name)).isSome) :
      (m'.place? (.ofClass c.name)).isSome := h.places hp
  have hkept {α : Type} {x : Oracle → MachineM α} (h : discretion.scene.Speaks x) :
      discretion.scene.Talks (fun m => (m.place? (.ofClass c.name)).isSome)
        (fun _ m => (m.place? (.ofClass c.name)).isSome) x :=
    (Talks.keep h hplace).mono (fun _ _ hp => ⟨trivial, hp⟩) fun _ _ _ hq => hq.2
  cases added with
  | true =>
      have hrest : discretion.scene.Talks (fun m => (m.place? (.ofClass c.name)).isSome)
          (fun c' m => c'.name = c.name ∧ (m.place? (.ofClass c.name)).isSome)
          fun o => enterInitialized o.load o.initializer c >>= fun _ => pure c :=
        Talks.bind (hkept (enterInitialized_speaks c)) fun _ => .pure fun _ _ hp => ⟨rfl, hp⟩
      refine .get_bind fun m hm => ?_
      by_cases hregistered : m.isRegistered classClassName = true
      · simp only [hregistered, if_true]
        apply Talks.mono (Talks.bind (hkept (Conduct.classObject_speaks discretion c.name))
          fun _ => hrest)
        · exact fun s _ hs => by rwa [hs]
        · exact fun _ _ _ hq => hq
      · simp only [hregistered]
        exact hrest.mono (fun s _ hs => by rwa [hs]) fun _ _ _ hq => hq
  | false =>
      simp only [Bool.false_eq_true, if_false]
      refine .get_bind fun m hm => ?_
      cases hclass : m.class? c.name with
      | none => exact .fail trivial
      | some c' =>
          refine .pure fun s _ hs => ?_
          subst hs
          obtain ⟨e, he, rfl⟩ := Option.map_eq_some_iff.mp hclass
          exact ⟨by simpa using List.find?_some he, hm⟩

/-- A request that is followed by work that upholds the objects of types, whether or not it
succeeds. -/
theorem always_talks {P : Machine → Prop} {Q : α → Machine → Prop} {x : Oracle → MachineM α}
    (h : discretion.scene.Talks P Q x) {after : Machine → Machine}
    (hafter : ∀ m : Machine, m.Upholds (after m)) (hQ : ∀ a m, Q a m → Q a (after m)) :
    discretion.scene.Talks P Q fun o => always (x o) after := by
  apply h.finish (Terms.mapState after) _ fun m => ⟨after m, rfl⟩
  · intro m r _ hr
    refine ⟨hr.mapState (fun m' _ hrel => ⟨trivial, Upholds.trans hrel (hafter m')⟩)
      (fun a m' _ _ hq => hQ a m' hq) fun _ hf => hf, ?_⟩
    cases r <;> exact hafter _
  · intro o m
    unfold always
    cases x o m <;> rfl

theorem loadWith_talks (path : ClassPath) (name : String) :
    discretion.scene.Talks (fun _ => True) (Loaded.Placed name)
      fun o => loadWith path o.load o.initializer name := by
  unfold loadWith
  by_cases harray : Descriptor.isArray name = true
  · simp only [harray, if_true]
    refine Talks.bind (.of_ends fun m hinv _ => Conduct.arrayClass_ends hinv name) fun a =>
      .pure fun m _ ha => ?_
    have hplace : Loaded.place (.ofArray a) = .ofArray name := by rw [Loaded.place, ha.1]
    refine ⟨?_, ?_⟩
    · rw [hplace, TypePlace.ofLoaded, if_pos harray]
    · rw [hplace]
      exact ha.2.1
  · have hofLoaded : TypePlace.ofLoaded name = .ofClass name := by
      rw [TypePlace.ofLoaded, if_neg harray]
    simp only [harray]
    refine Talks.get_bind fun m _ => ?_
    cases hclass : m.registration? name with
    | some e =>
        dsimp only
        split
        · exact .fail_bind trivial
        · refine .pure fun s _ hs => ?_
          have hname : e.cls.name = name := by simpa using List.find?_some hclass
          have hplace : Loaded.place (.ofClass e.cls) = .ofClass name := by
            rw [Loaded.place, hname]
          refine ⟨hplace.trans hofLoaded.symm, ?_⟩
          rw [hplace, hs, place?, hclass]
          rfl
    | none =>
        -- a class that is neither registered nor being loaded gets its place when it is defined
        have hfresh : discretion.scene.Talks (fun _ => True) (Loaded.Placed name) fun o => (do
            modify (·.begin name)
            let c ← always (define path o.load o.initializer name) (·.finish name)
            return .ofClass c) := by
          refine Talks.bind (modify_speaks fun m => .of_eq rfl rfl rfl rfl) fun _ => ?_
          refine Talks.bind (always_talks (define_talks path name)
            (fun m => .of_eq rfl rfl rfl rfl) fun c m hq => hq) fun c =>
              .pure fun m _ hc => ?_
          have hplace : Loaded.place (.ofClass c) = .ofClass name := by rw [Loaded.place, hc.1]
          refine ⟨hplace.trans hofLoaded.symm, ?_⟩
          rw [hplace]
          exact hc.2
        refine Talks.get_bind fun m' _ => ?_
        split
        · exact .fail_bind trivial
        · exact hfresh.mono (fun _ _ _ => trivial) fun _ _ _ hq => hq

/-!
# Answers of a host
-/

def typesOnly (o : Oracle) : Oracle
  | .load name => o (.load name)
  | .run _ _ => fun m => .error .outOfFuel m

section

variable {host : Host} (hnatives : host.natives.Discreet)

include hnatives

theorem honors_of_load {fuel : Nat}
    (hload : ∀ name m, discretion.Serves (.load name) m (host.oracle fuel (.load name) m)) :
    discretion.manner.Honors (host.oracle fuel) := by
  have htypes : discretion.manner.Honors (typesOnly (host.oracle fuel)) := by
    intro last q m _
    cases q with
    | load name => exact hload name m
    | run method arguments => trivial
  intro last q m _
  cases q with
  | load name => exact hload name m
  | run method arguments =>
      have hrun := Conduct.invoke_speaks hnatives fuel method arguments m trivial trivial
      exact (hrun.outcome (Conduct.manner_chains _) htypes).1

/-- The host answers every question in a way that upholds the objects of types. -/
theorem honors (fuel : Nat) : discretion.manner.Honors (host.oracle fuel) := by
  -- what a load asks for is answered with less fuel
  induction fuel with
  | zero =>
      refine honors_of_load hnatives fun name m => ?_
      show discretion.Serves (.load name) m (.error .outOfFuel m)
      exact ⟨trivial, False.elim⟩
  | succ fuel ih =>
      refine honors_of_load hnatives fun name m => ?_
      rw [Host.oracle_load]
      exact ⟨((loadWith_talks host.path name m trivial trivial).outcome
        (Conduct.manner_chains _) ih).1, False.elim⟩

end

end TypeObjects
end Bytecode
