import Bytecode.Proofs.History.Order
import Bytecode.Proofs.Loading.Rest

/-!
# The registry in the course of a history

At every event of a history the registry is consistent.  From event to event classes stay as they
are, and their states change at most once.  The loader starts a static initializer at most once,
and marks no class for longer than its load takes.
-/

namespace Bytecode

open Machine Scene

variable {path : ClassPath} {m m' : Machine} {events : List Event}

/-- The registry of a machine as it should be. -/
structure Machine.Consistent (path : ClassPath) (m : Machine) : Prop where
  /-- Each class is found by its own name. -/
  found : ∀ e ∈ m.classes, m.registration? e.cls.name = some e
  /-- Each class is made of its file, and its constant table is that of the same file. -/
  made : ∀ e ∈ m.classes, ∃ file, path.Declares e.cls.name file ∧
    Declarations.ofFile file = .ok e.cls.declarations ∧ m.pool? e.cls.name = some file.pool
  root : ∀ e ∈ m.classes, e.cls.parent = none ↔ e.cls.name = rootName
  parent : ∀ e ∈ m.classes, ∀ p, e.cls.parent = some p →
    p.isInterface = false ∧ m.class? p.name = some p
  interfaces : ∀ e ∈ m.classes, ∀ i ∈ e.cls.interfaces,
    i.isInterface = true ∧ m.class? i.name = some i
  acyclic : ∀ name, ¬ Relation.TransGen m.Below name name

theorem Machine.class?_of_standing? {name : String} {c : Class} {s : ClassState}
    (h : m.standing? name = some (c, s)) : m.class? name = some c := by
  obtain ⟨e, he, heq⟩ := Option.map_eq_some_iff.mp h
  cases heq
  exact Option.map_eq_some_iff.mpr ⟨e, he, rfl⟩

theorem Machine.Registry.consistent (h : m.Registry path) (horderly : m.Orderly) :
    m.Consistent path := by
  have hlinks (e : Entry) (he : e ∈ m.classes) :=
    h e.cls.name e.cls e.state (horderly.standing?_entry he)
  constructor
  · intro e he
    have hnames := horderly.names
    rw [standings, List.map_map] at hnames
    obtain ⟨e', he', -⟩ := Option.map_eq_some_iff.mp (horderly.standing?_entry he)
    rw [he', eq_of_registration? hnames he' he rfl]
  · intro e he
    obtain ⟨file, hfile, hlinks, hpool⟩ := hlinks e he
    exact ⟨file, hfile, hlinks.declarations, hpool⟩
  · intro e he
    obtain ⟨file, -, hlinks, -⟩ := hlinks e he
    exact hlinks.root
  · intro e he p hp
    obtain ⟨file, -, hlinks, -⟩ := hlinks e he
    obtain ⟨hclass, s, hs⟩ := hlinks.parent p hp
    exact ⟨hclass, class?_of_standing? hs⟩
  · intro e he i hi
    obtain ⟨file, -, hlinks, -⟩ := hlinks e he
    obtain ⟨hinterface, s, hs⟩ := hlinks.interfaces i hi
    exact ⟨hinterface, class?_of_standing? hs⟩
  · exact h.acyclic

/-!
# Histories
-/

section

variable {host : Host}

/-- A load that ends leaves the marks as they were. -/
theorem load_loading (hnatives : host.natives.Polite) {typed : Prop}
    (hinv : (conduct host.path typed none).inv m) {fuel : Nat} {name : String}
    (hend : Finishes (host.load fuel name) m m') : m'.loading = m.loading := by
  obtain ⟨hgoes, hlast⟩ := hend.ends_at
  have hends : (conduct host.path typed none).Ends _ m (host.load fuel name m) :=
    (serving hnatives fuel (.load name) m hinv).1
  have hrel := hends.rel hgoes
  rw [hlast] at hrel
  exact hrel.1.loading

theorem work_keeps (hinv : (conduct path False none).inv m) (hwork : Works m m') :
    (conduct path False none).inv m' ∧ Advances False m m' := by
  obtain ⟨hinv', hrel⟩ := ordered_work hinv hwork False.elim
  exact ⟨hinv', .of_extends hrel⟩

/-- The registry is consistent at every event of a history; loads that end leave the marks as they
were; registered classes stay, and a state only changes if it is that of a class that is linked; and
the loader starts the static initializer of a class at most once. -/
theorem History.registry_kept (hnatives : host.natives.Polite) (h : History host Works events) :
    (∀ e ∈ events, e.machine.Consistent host.path ∧
      ∀ fuel name m, Finishes (host.load fuel name) e.machine m → m.loading = e.machine.loading) ∧
    (events.Pairwise fun a b => Evolves a.machine b.machine) ∧
      ∀ name, events.Pairwise fun a b => ¬ (a.Starts name ∧ b.Starts name) := by
  have hchronicle := h.chronicle hnatives work_keeps
  refine ⟨fun e he => ?_, ?_, fun name => ?_⟩
  · have hinv := hchronicle.inv e he
    exact ⟨hinv.2.1.consistent hinv.1, fun fuel name m hend => load_loading hnatives hinv hend⟩
  · exact hchronicle.ordered.imp fun h => h.1.1
  · exact hchronicle.ordered.imp fun h hboth => h.2 name hboth.1 hboth.2

end

/-!
# A history in which code is run
-/

/-- Surroundings in which no type is ever loaded and all code fails. -/
def Oracle.refusing (f : Fault) : Oracle
  | .load _ => fun m => .error .outOfFuel m
  | .run _ _ => fun m => .error (.fault f) m

def Oracle.failing (f : Fault) : Oracle := fun _ m => .error (.fault f) m

def Oracle.silent : Oracle := fun _ m => .error .outOfFuel m

theorem Oracle.limited_empty (o : Oracle) : o.limited ∅ = silent := by
  funext q m
  exact if_neg (Set.notMem_empty _)

/-- A question whose answer makes a difference is asked. -/
theorem asks_of_limited {α : Type} {x : Oracle → EStateM.Result Halt Machine α} {q : Query}
    (o other : Oracle) (hdiffer : x (other.limited {(q, m)}) ≠ x .silent) :
    Asks x o ∅ q m := by
  refine ⟨Set.notMem_empty _, other.limited {(q, m)}, fun q' m' hne => ?_, ?_⟩
  · rw [Oracle.limited_empty]
    exact if_neg hne
  · rwa [Oracle.limited_empty]

section

variable {α : Type} {typed : Prop} {m₀ : Machine} {name : String} {last : Moment}
  {F : EStateM.Result Halt Machine α → Prop} {x : Oracle → EStateM.Result Halt Machine α}

theorem Dialogue.const_of_afterRun (h : Dialogue (course path typed m₀ name True) id F last x)
    (hrun : last.AfterRun) : ∃ r, x = fun _ => r := by
  cases h with
  | done => exact ⟨_, rfl⟩
  | ask hask => exact absurd hrun hask.2.2.2.2

theorem Dialogue.asks_run (h : Dialogue (course path typed m₀ name True) id F last x) {f : Fault}
    (hdiffer : x (.refusing f) ≠ x .silent) (o : Oracle) :
    ∃ method arguments m, Asks x o ∅ (.run method arguments) m := by
  cases h with
  | done => exact absurd rfl hdiffer
  | @ask _ q m k hask hstop hnext =>
      cases q with
      | load n =>
          obtain ⟨m', hconst⟩ := hstop m
          exact absurd ((hconst _).trans (hconst _).symm) hdiffer
      | run method arguments =>
          have hserves : (course path typed m₀ name True).serves (.run method arguments) m
              (.error (.fault f) m) := ⟨hask.1, Terms.rel_refl _ m, trivial⟩
          obtain ⟨r, hr⟩ := (hnext _ hserves).const_of_afterRun trivial
          have hhere : (Oracle.refusing f).limited {(.run method arguments, m)}
              (.run method arguments) m = .error (.fault f) m := if_pos rfl
          refine ⟨method, arguments, m, asks_of_limited o (.refusing f) ?_⟩
          rw [hhere, hr]
          change k (.error (.fault f) m) _ ≠ k (.error .outOfFuel m) _ at hdiffer
          rwa [hr] at hdiffer

end

namespace InitializedRoot

def host : Host :=
  ⟨ClassPath.ofRows [(rootName, Sample.file rootName none [] [Sample.initializer [0xB1]])],
    Native.library, 8, false⟩

def division : Fault := .zeroDivisor .quotient

def load (o : Oracle) : EStateM.Result Halt Machine Unit :=
  (Task.load rootName).via host 8 o Machine.empty

theorem load_facts :
    faultOf (load (.refusing division)) = some division ∧ faultOf (load .silent) = none := by
  decide +kernel

theorem initializer_asked :
    ∃ q m, (Task.load rootName).Asks host 8 Machine.empty ∅ q m ∧
      (Event.asked (.load rootName) q m).Starts rootName := by
  have hinv : (conduct host.path False none).inv Machine.empty :=
    ⟨Orderly.empty, Registry.empty, False.elim, nofun⟩
  have hdiffer : load (.refusing division) ≠ load .silent := by
    intro heq
    have hfacts := load_facts
    rw [heq] at hfacts
    exact absurd (hfacts.1.symm.trans hfacts.2) nofun
  obtain ⟨method, arguments, m, hasks⟩ :=
    (load_dialogue hinv rootName).unanswered.asks_run hdiffer (host.oracle 8)
  exact ⟨.run method arguments, m, hasks, rfl⟩

theorem load_asked_for :
    (Task.request (.load rootName)).Asks host 9 Machine.empty ∅ (.load rootName) Machine.empty := by
  have hhere : (Oracle.failing division).limited {(.load rootName, Machine.empty)}
      (.load rootName) Machine.empty = .error (.fault division) Machine.empty := if_pos rfl
  have hvia (o : Oracle) : (Task.request (.load rootName)).via host 9 o Machine.empty =
      andThen (fun _ => pure ()) (o (.load rootName) Machine.empty) := discard_eq _ _
  apply asks_of_limited _ (.failing division)
  rw [hvia, hvia, hhere]
  exact nofun

/-- In some history the loader starts the static initializer of the root class, and does so once. -/
theorem root_initialized_once :
    ∃ events, History host Works events ∧ (∃ e ∈ events, e.Starts rootName) ∧
      (events.Pairwise fun a b => Evolves a.machine b.machine) ∧
        events.Pairwise fun a b => ¬ (a.Starts rootName ∧ b.Starts rootName) := by
  obtain ⟨q, m, hasks, hstarts⟩ := initializer_asked
  have hhistory : History host Works
      ([.rested Machine.empty] ++ ([] ++ [.asked (.request (.load rootName)) (.load rootName)
        Machine.empty] ++ ([] ++ [.asked (.load rootName) q m]))) :=
    ⟨9, .load rootName, Machine.empty, .within, _, _, .empty,
      .answering (.ask (.start 9 _ _) load_asked_for) (.load rootName 8)
        (.ask (.start 8 _ _) hasks), rfl⟩
  obtain ⟨-, hevolves, hstarted⟩ := hhistory.registry_kept Native.library_polite
  refine ⟨_, hhistory, ⟨.asked (.load rootName) q m, ?_, hstarts⟩, hevolves, hstarted rootName⟩
  simp

end InitializedRoot

end Bytecode
