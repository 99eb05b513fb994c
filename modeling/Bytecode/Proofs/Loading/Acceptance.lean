import Bytecode.Proofs.Loading.Answers
import Bytecode.Proofs.Loading.Loadable
import Bytecode.Proofs.Loading.Reachable
import Mathlib.Data.List.Perm.Subperm

/-!
# What the loader accepts

If no class has anything to do when it is initialized, the loader accepts exactly the classes that
can be loaded, whatever was loaded before and whether or not that succeeded.  Every load ends: the
classes being loaded at one time are different ones of the class path.
-/

namespace Bytecode

open Machine Scene

variable {α β : Type} {path : ClassPath} {m m' : Machine} {name : String} {c : Class}
  {file : ClassFile} {names : List String}

/-!
# Outcomes
-/

/-- The outcome of a request that keeps `R`.  It may be a fault only if `fails`, and may be for want
of fuel only if `stops`. -/
def Settles (R : Machine → Prop) (fails stops : Prop) (Q : α → Machine → Prop) :
    EStateM.Result Halt Machine α → Prop
  | .ok a m => R m ∧ Q a m
  | .error (.fault _) m => fails ∧ R m
  | .error .outOfFuel _ => stops

namespace Settles

variable {R R' : Machine → Prop} {fails fails' stops stops' : Prop} {P Q : α → Machine → Prop}

theorem mono {r : EStateM.Result Halt Machine α} (h : Settles R fails stops P r)
    (hR : ∀ m, R m → R' m) (hfails : fails → fails') (hstops : stops → stops')
    (hQ : ∀ a m, R m → P a m → Q a m) : Settles R' fails' stops' Q r := by
  cases r with
  | ok a m => exact ⟨hR m h.1, hQ a m h.1 h.2⟩
  | error e m =>
      cases e with
      | fault f => exact ⟨hfails h.1, hR m h.2⟩
      | outOfFuel => exact hstops h

theorem bind {Q : β → Machine → Prop} {x : MachineM α} {f : α → MachineM β}
    (hx : Settles R fails stops P (x m))
    (hf : ∀ a m', R m' → P a m' → Settles R fails stops Q (f a m')) :
    Settles R fails stops Q ((x >>= f) m) := by
  cases hxm : x m with
  | ok a m' =>
      rw [hxm] at hx
      rw [bind_of_ok hxm]
      exact hf a m' hx.1 hx.2
  | error e m' =>
      rw [hxm] at hx
      rw [bind_of_error hxm]
      cases e with
      | fault f => exact hx
      | outOfFuel => exact hx

theorem mapM {f : α → MachineM β} {items : List α}
    (hf : ∀ a ∈ items, ∀ m, R m → Settles R fails stops (fun _ _ => True) (f a m)) (hm : R m) :
    Settles R fails stops (fun _ _ => True) (items.mapM f m) := by
  induction items generalizing m with
  | nil => exact ⟨hm, trivial⟩
  | cons a items ih =>
      rw [List.mapM_cons]
      refine (hf a List.mem_cons_self m hm).bind fun b m₁ hm₁ _ => ?_
      refine (ih (fun a' ha' => hf a' (List.mem_cons_of_mem a ha')) hm₁).bind fun bs m₂ hm₂ _ => ?_
      exact ⟨hm₂, trivial⟩

end Settles

/-!
# Machines on which only classes are loaded
-/

/-- The machine is in order while the named classes are being loaded, and no class has failed. -/
structure Ready (path : ClassPath) (names : List String) (m : Machine) : Prop where
  inv : (conduct path False none).inv m
  loading : m.loading = names
  clean : ∀ {n c s}, m.standing? n = some (c, s) → s ≠ .erroneous ∧ Descriptor.isArray n = false

namespace Ready

theorem empty : Ready path [] Machine.empty :=
  ⟨⟨Orderly.empty, Registry.empty, False.elim, nofun⟩, rfl, nofun⟩

theorem works (h : Ready path names m) (hw : Works m m') : Ready path names m' := by
  refine ⟨(ordered_work h.inv hw False.elim).1, hw.loading.trans h.loading, ?_⟩
  intro n c s hs
  rw [hw.standing?] at hs
  exact h.clean hs

theorem enter {pool : Pool} (h : Ready path names m) (hnone : m.standing? c.name = none)
    (harray : Descriptor.isArray c.name = false)
    (hinv : (conduct path False none).inv (m.enter c pool)) :
    Ready path names (m.enter c pool) := by
  refine ⟨hinv, h.loading, fun {n d s} hs => ?_⟩
  rw [enter_standing? pool hnone] at hs
  split at hs
  next hn =>
      cases hs
      exact ⟨nofun, hn ▸ harray⟩
  next => exact h.clean hs

theorem loadable (h : Ready path names m) (hfixed : path.Fixed) {s : ClassState}
    (hs : m.standing? name = some (c, s)) : path.Loadable name :=
  h.inv.2.1.loadable hfixed (fun hp => (h.clean hp).2) hs

end Ready

def Loaded.Given (n : String) (m : Machine) : Loaded → Prop
  | ofClass c => ∃ s, m.standing? n = some (c, s)
  | ofArray _ => Descriptor.isArray n = true

/-- The loader ends every load that it has the fuel for, and accepts every class that can be loaded
unless one is in the way that is being loaded already. -/
def Loader.Accepts (path : ClassPath) (names : List String) (stops : Prop) (load : Loader) : Prop :=
  ∀ n m, Ready path names m →
    Settles (fun m' => Ready path names m' ∧ Extends m m') (¬ (path.Loadable n ∧ path.Free names n))
      stops (fun l m' => l.Given n m') (load n m)

/-!
# Linking
-/

theorem ClassPath.Loadable.declared (hfixed : path.Fixed) (h : path.Loadable name)
    (hfile : path.Declares name file) :
    file.WellFormed ∧ (file.superName = none ↔ name = rootName) ∧
      (∀ superName, file.superName = some superName → ¬ path.IsInterface superName) ∧
        ∀ i ∈ file.interfaces, path.IsInterface i := by
  cases h with
  | intro _ hfile' hmembers hroot _ hclass _ hkinds =>
      rw [hfixed.unique hfile hfile'] at hmembers hroot hclass hkinds
      exact ⟨hmembers, hroot, hclass, hkinds⟩

section

variable {load : Loader} {stops : Prop} (hfixed : path.Fixed)
  (hload : load.Accepts path (name :: names) stops) {m₀ : Machine}

def Linking (path : ClassPath) (names : List String) (m₀ m : Machine) : Prop :=
  Ready path names m ∧ Extends m₀ m

include hload

theorem load_settles {n : String} (hm : Linking path (name :: names) m₀ m) :
    Settles (Linking path (name :: names) m₀)
      (¬ (path.Loadable n ∧ path.Free (name :: names) n)) stops
        (fun l m' => l.Given n m') (load n m) :=
  (hload n m hm.1).mono (fun _ h => ⟨h.1, hm.2.trans h.2⟩) id id fun _ _ _ h => h

theorem loadClass_settles {n : String} (hm : Linking path (name :: names) m₀ m) :
    Settles (Linking path (name :: names) m₀)
      (¬ (path.Loadable n ∧ path.Free (name :: names) n)) stops
        (fun c m' => ∃ s, m'.standing? n = some (c, s)) (load.loadClass n m) := by
  refine (load_settles hload hm).bind fun l m' hm' hl => ?_
  cases l with
  | ofClass c => exact ⟨hm', hl⟩
  | ofArray a =>
      refine ⟨fun hgood => ?_, hm'⟩
      cases hgood.1 with
      | intro harray =>
          rw [show Descriptor.isArray n = true from hl] at harray
          cases harray

variable (hfile : path.Declares name file)

include hfixed hfile

/-- A supertype that is missing or circular keeps the class from being loaded. -/
theorem supertype_settles {other : String} (hother : file.HasSupertype other)
    (hm : Linking path (name :: names) m₀ m) :
    Settles (Linking path (name :: names) m₀) (¬ (path.Loadable name ∧ path.Free names name)) stops
      (fun c _ => c.isInterface = true ↔ path.IsInterface other) (load.loadClass other m) := by
  refine (loadClass_settles hload hm).mono (fun _ h => h) ?_ id ?_
  · rintro hbad ⟨hloadable, hfree⟩
    have hsuper : path.Supertype name other := ⟨file, hfile, hother⟩
    exact hbad ⟨hloadable.supertype hfixed hsuper, hfree.supertype hfixed hloadable hsuper⟩
  · rintro c m' hm' ⟨s, hs⟩
    exact hm'.1.inv.2.1.isInterface_iff hfixed hs

theorem loadParent_settles (hm : Linking path (name :: names) m₀ m) :
    Settles (Linking path (name :: names) m₀) (¬ (path.Loadable name ∧ path.Free names name)) stops
      (fun _ _ => True) (loadParent load file m) := by
  have hname : file.name = name := by
    obtain ⟨-, -, -, -, hname⟩ := hfile
    exact hname
  unfold loadParent
  -- the root alone declares no superclass, and a superclass is no interface
  cases hsuper : file.superName with
  | none =>
      by_cases hroot : file.name = rootName
      · simp only [hroot, ne_eq, not_true, if_false]
        exact ⟨hm, trivial⟩
      · simp only [ne_eq, hroot, not_false_eq_true, if_true]
        refine ⟨fun hgood => hroot ?_, hm⟩
        rw [hname]
        exact (hgood.1.declared hfixed hfile).2.1.mp hsuper
  | some superName =>
      by_cases hroot : file.name = rootName
      · simp only [hroot, if_true]
        refine ⟨fun hgood => ?_, hm⟩
        have hnone := (hgood.1.declared hfixed hfile).2.1.mpr (hname.symm.trans hroot)
        rw [hsuper] at hnone
        cases hnone
      · simp only [hroot, if_false]
        refine (supertype_settles hfixed hload hfile (.inl hsuper) hm).bind
          fun parent m' hm' hkind => ?_
        by_cases hinterface : parent.isInterface = true
        · simp only [hinterface, if_true]
          refine ⟨fun hgood => ?_, hm'⟩
          exact (hgood.1.declared hfixed hfile).2.2.1 superName hsuper (hkind.mp hinterface)
        · simp only [hinterface]
          exact ⟨hm', trivial⟩

theorem loadInterface_settles {other : String} (hother : other ∈ file.interfaces)
    (hm : Linking path (name :: names) m₀ m) :
    Settles (Linking path (name :: names) m₀) (¬ (path.Loadable name ∧ path.Free names name)) stops
      (fun _ _ => True) (loadInterface load file.name other m) := by
  unfold loadInterface
  refine (supertype_settles hfixed hload hfile (.inr hother) hm).bind fun i m' hm' hkind => ?_
  by_cases hinterface : i.isInterface = true
  · simp only [hinterface, Bool.not_true, Bool.false_eq_true, if_false]
    exact ⟨hm', trivial⟩
  · simp only [hinterface, Bool.not_false, if_true]
    refine ⟨fun hgood => hinterface (hkind.mpr ?_), hm'⟩
    exact (hgood.1.declared hfixed hfile).2.2.2 other hother

/-- A class is linked if it can be loaded and nothing is in the way. -/
theorem link_settles (hm : Linking path (name :: names) m₀ m) :
    Settles (Linking path (name :: names) m₀) (¬ (path.Loadable name ∧ path.Free names name)) stops
      (fun _ _ => True) (link load file m) := by
  unfold link
  refine (loadParent_settles hfixed hload hfile hm).bind fun parent m₁ hm₁ _ => ?_
  refine Settles.bind (Settles.mapM (fun other hother m hm =>
    loadInterface_settles hfixed hload hfile hother hm) hm₁) fun interfaces m₂ hm₂ _ => ?_
  cases hdeclared : Declarations.ofFile file with
  | ok d => exact ⟨hm₂, trivial⟩
  | error e =>
      refine ⟨fun hgood => ?_, hm₂⟩
      obtain ⟨d, hd⟩ := Declarations.exists_ofFile_iff.mpr (hgood.1.declared hfixed hfile).1
      rw [hdeclared] at hd
      cases hd

end

/-!
# Initialization
-/

section

variable {load : Loader} {invoke : Method → MachineM Unit}

theorem Machine.Links.idle (h : m.Links file c) (hidle : file.Idle) :
    (∀ f ∈ c.staticFields, f.constantValue = none) ∧
      c.declaredMethod? "<clinit>" "()V" = none := by
  obtain ⟨fields, methods, hfields, hmethods, hdeclared⟩ :=
    Declarations.ofFile_eq_ok h.declarations
  constructor
  · intro f hf
    rw [Class.staticFields, hdeclared] at hf
    obtain ⟨member, hmember, hof⟩ := mem_of_mapM hfields (List.mem_filter.mp hf).1
    rw [(Field.ofMember_eq_ok hof).2]
    exact hidle.constants member hmember
  · rw [Class.declaredMethod?, Class.methods, hdeclared, List.find?_eq_none]
    intro method hmethod hnamed
    obtain ⟨member, hmember, hof⟩ := mem_of_mapM hmethods hmethod
    obtain ⟨hname, hdescriptor, -⟩ := Method.ofMember_eq_ok hof
    rw [Method.isNamed, Bool.and_eq_true, beq_iff_eq, beq_iff_eq, hname, hdescriptor] at hnamed
    exact hidle.initializer member hmember hnamed

theorem assignConstants_idle (pool : Pool) {fields : List Field}
    (h : ∀ f ∈ fields, f.constantValue = none) (position : Nat) :
    assignConstants load pool position fields m = .ok () m := by
  induction fields generalizing position with
  | nil => rfl
  | cons f fields ih =>
      have hfirst : assignConstant load pool position f m = .ok () m := by
        unfold assignConstant
        rw [h f List.mem_cons_self]
        rfl
      unfold assignConstants
      rw [bind_of_ok hfirst]
      exact ih (fun g hg => h g (List.mem_cons_of_mem f hg)) _

theorem enterInitialized_idle (hlinks : m.Links file c) (hidle : file.Idle) {pool : Pool}
    (hpool : m.pool? c.name = some pool) :
    enterInitialized load invoke c m = .ok () (m.setState c.name .initialized) := by
  obtain ⟨hconstants, hmethod⟩ := hlinks.idle hidle
  have hrun : runInitializer load invoke c m = .ok () m := by
    rw [runInitializer_eq hpool, assignConstants_idle pool hconstants]
    show runDeclared invoke c m = _
    unfold runDeclared
    rw [hmethod]
    rfl
  unfold enterInitialized
  rw [hrun]

theorem classObject_idle (hprompt : Prompt load) {cls : Class} {s : ClassState}
    (hclass : m.standing? classClassName = some (cls, s)) (hs : s ≠ .erroneous) :
    (classObject load name m = .error .outOfFuel m ∧
        load classClassName m = .error .outOfFuel m) ∨
      ∃ address m', Works m m' ∧ classObject load name m = .ok address m' := by
  cases hmade : m.registration? name >>= Entry.classObject with
  | some address =>
      refine .inr ⟨address, m, ⟨rfl, rfl, rfl, rfl⟩, ?_⟩
      unfold classObject
      rw [get_bind, hmade]
      rfl
  | none =>
      rcases hprompt (by decide) hclass with hstop | hok
      · exact .inl ⟨classObject_of_error hmade hstop, hstop⟩
      · rw [if_neg hs] at hok
        exact .inr ⟨_, _, reflected_works m cls name, classObject_of_ok hmade hok⟩

theorem settle_idle (hprompt : Prompt load) (hlinks : m.Links file c) (hidle : file.Idle)
    (hpool : m.pool? c.name = some file.pool)
    (hclean : ∀ {n d s}, m.standing? n = some (d, s) → s ≠ .erroneous) :
    (settle load invoke c m = .error .outOfFuel m ∧ load classClassName m = .error .outOfFuel m) ∨
      ∃ m', Works m m' ∧ settle load invoke c m = .ok c (m'.setState c.name .initialized) := by
  cases hclass : m.standing? classClassName with
  | none =>
      refine .inr ⟨m, ⟨rfl, rfl, rfl, rfl⟩, ?_⟩
      rw [settle_without hclass]
      exact bind_of_ok (enterInitialized_idle hlinks hidle hpool)
  | some p =>
      rw [settle_classObject hclass]
      rcases classObject_idle hprompt hclass (hclean hclass) with ⟨hstop, hload⟩ | ⟨a, m', hw, hok⟩
      · exact .inl ⟨bind_of_error hstop, hload⟩
      · refine .inr ⟨m', hw, (bind_of_ok hok).trans ?_⟩
        have hlinks' : m'.Links file c := hlinks.mono fun hs => ⟨_, (hw.standing? _).trans hs⟩
        exact bind_of_ok (enterInitialized_idle hlinks' hidle ((hw.pool? _).trans hpool))

end

/-!
# Loads
-/

section

variable {host : Host} (hidle : ∀ {name file}, host.path.Declares name file → file.Idle)

include hidle

theorem serving_idle (fuel : Nat) (name : String) : Serving False host fuel (.load name) := by
  induction fuel generalizing name with
  | zero =>
      intro m _
      refine ⟨trivial, fun _ => ?_⟩
      intro c s _ _
      exact .inl trivial
  | succ fuel ih =>
      apply serving_load
      intro q m hinv hown
      cases q with
      | load n => exact ih n m hinv
      | run method arguments =>
          obtain ⟨c, method', hs, hmethod, -⟩ := hown trivial
          obtain ⟨file, hfile, hlinks, -⟩ := hinv.2.1 name c .linked hs
          rw [(hlinks.idle (hidle hfile)).2] at hmethod
          cases hmethod

theorem link_ends {m₀ : Machine} (file : ClassFile) (fuel : Nat)
    (hm : (during host.path False m₀ name).inv m) :
    (during host.path False m₀ name).Ends (fun c m => m.Links file c) m
      (link (host.load fuel) file m) := by
  have hhonors : (during host.path False m₀ name).manner.Honors (host.oracle fuel) := by
    rintro last q m' ⟨hinv, -, hruns⟩
    cases q with
    | run method arguments => exact absurd (hruns trivial) no_runs
    | load n =>
        obtain ⟨hends, hprompts⟩ := serving_idle hidle fuel n m' (inv_of_stacked hinv).1
        exact ⟨ends_stacked hends (inv_of_stacked hinv).2, hprompts⟩
  exact ((link_talks host.path False _ file m hm trivial).outcome (Conduct.manner_chains _)
    hhonors).1

end

theorem arrayClass_cases (name : String) (m : Machine) :
    (∃ a m', Works m m' ∧ arrayClass name m = .ok a m') ∨
      ∃ f, arrayClass name m = .error (.fault f) m := by
  have hrefl : Works m m := ⟨rfl, rfl, rfl, rfl⟩
  rcases arrayClass_outcome name m with ⟨e, -, hok⟩ | ⟨-, hfault⟩ | ⟨f, -, hfault⟩ |
    ⟨root, element, -, -, -, hok⟩
  · exact .inl ⟨e.cls, m, hrefl, hok⟩
  · exact .inr ⟨_, hfault⟩
  · exact .inr ⟨_, hfault⟩
  · refine .inl ⟨_, _, ?_, hok⟩
    exact ⟨rfl, rfl, rfl, rfl⟩

namespace Ready

variable (h : Ready path names m)

include h

theorem begin (hnone : m.standing? name = none) :
    Ready path (name :: names) (m.begin name) := by
  refine ⟨(inv_of_stacked (begin_conduct hnone h.inv)).1, ?_, fun hs => h.clean hs⟩
  show name :: m.loading = _
  rw [h.loading]

theorem finish_absent (hnone : m.standing? name = none)
    (hm : Linking path (name :: names) (m.begin name) m') :
    Ready path names (m'.finish name) ∧ Extends m (m'.finish name) := by
  have hloading : m'.loading = name :: m.loading := hm.2.loading
  obtain ⟨hinv, hext, -⟩ := absent_conduct hnone (stacked_inv hm.1.inv hloading) ⟨hm.2, False.elim⟩
  exact ⟨⟨hinv, hext.loading.trans h.loading, fun hs => hm.1.clean hs⟩, hext⟩

theorem finish_settled (hm : Ready path (name :: names) m')
    (hclass : Settling path False m c m') (hname : c.name = name) :
    Ready path names ((m'.setState name .initialized).finish name) ∧
      Extends m ((m'.setState name .initialized).finish name) ∧
        ∃ s, ((m'.setState name .initialized).finish name).standing? name = some (c, s) := by
  subst hname
  obtain ⟨hinv, hrel, hown⟩ := hclass.settled (s := .initialized) nofun
  refine ⟨⟨hinv, hrel.1.loading.trans h.loading, fun {n d s} hs => ?_⟩, hrel.1, _, hown⟩
  rw [finish_standing?, setState_standing?] at hs
  split at hs
  next hn =>
      obtain ⟨p, hp, heq⟩ := Option.map_eq_some_iff.mp hs
      cases heq
      exact ⟨nofun, (hm.clean hp).2⟩
  next => exact hm.clean hs

end Ready

theorem array_settles {load : Loader} {invoke : Method → MachineM Unit} {stops : Prop}
    (h : Ready path names m) (harray : Descriptor.isArray name = true) :
    Settles (fun m' => Ready path names m' ∧ Extends m m')
      (¬ (path.Loadable name ∧ path.Free names name)) stops (fun l m' => l.Given name m')
        (loadWith path load invoke name m) := by
  rw [loadWith_array harray]
  rcases arrayClass_cases name m with ⟨a, m', hw, hok⟩ | ⟨f, hfault⟩
  · rw [bind_of_ok hok]
    exact ⟨⟨h.works hw, hw.extends⟩, harray⟩
  · rw [bind_of_error hfault]
    refine ⟨fun hgood => ?_, h, Extends.refl m⟩
    cases hgood.1 with
    | intro hname =>
        rw [harray] at hname
        cases hname

theorem settling_settles {host : Host}
    (hidle : ∀ {name file}, host.path.Declares name file → file.Idle)
    {invoke : Method → MachineM Unit} {fuel : Nat} {fails stops : Prop}
    (h : Ready host.path names m) (hm : Ready host.path (c.name :: names) m')
    (hsettling : Settling host.path False m c m')
    (hload : (host.load fuel).Accepts host.path (c.name :: names) stops) :
    Settles (fun m' => Ready host.path names m' ∧ Extends m m') fails stops
      (fun l m' => l.Given c.name m')
        (finishing c.name (settle (host.load fuel) invoke c m')) := by
  obtain ⟨file, hfile, hlinks, hpool⟩ := hm.inv.2.1 c.name c .linked hsettling.registers.own
  rcases settle_idle (host.load_prompt fuel) hlinks (hidle hfile) hpool
    (fun hs => (hm.clean hs).1) with ⟨hstop, hclass⟩ | ⟨m₂, hw, hok⟩
  · have hstops := hload classClassName _ hm
    rw [hclass] at hstops
    rw [hstop]
    exact hstops
  · have hready := hm.works hw
    have hgone := hsettling.goOn hready.inv ⟨hw.extends, False.elim⟩
    obtain ⟨hfinished, hextends, hown⟩ := h.finish_settled hready hgone rfl
    rw [hok]
    exact ⟨⟨hfinished, hextends⟩, hown⟩

section

variable {host : Host} (hfixed : host.path.Fixed)
  (hidle : ∀ {name file}, host.path.Declares name file → file.Idle)

include hfixed hidle

theorem fresh_settles {invoke : Method → MachineM Unit} {fuel : Nat} {stops : Prop}
    (h : Ready host.path names m) (harray : Descriptor.isArray name = false)
    (hnone : m.standing? name = none) (hfree : name ∉ m.loading)
    (hfile : host.path.Declares name file)
    (hload : (host.load fuel).Accepts host.path (name :: names) stops) :
    Settles (fun m' => Ready host.path names m' ∧ Extends m m')
      (¬ (host.path.Loadable name ∧ host.path.Free names name)) stops (fun l m' => l.Given name m')
        (finishing name (define host.path (host.load fuel) invoke name (m.begin name))) := by
  have hbegin : Linking host.path (name :: names) (m.begin name) (m.begin name) :=
    ⟨h.begin hnone, Extends.refl _⟩
  have hsettles := link_settles hfixed hload hfile hbegin
  have hends := link_ends hidle file fuel (begin_conduct hnone h.inv)
  rw [define_eq_register (hfixed.readClassFile hfile (m.begin name))]
  cases hlink : link (host.load fuel) file (m.begin name) with
  | error e m' =>
      rw [hlink] at hsettles
      cases e with
      | outOfFuel => exact hsettles
      | fault f => exact ⟨hsettles.1, h.finish_absent hnone hsettles.2⟩
  | ok c m' =>
      rw [hlink] at hsettles hends
      obtain ⟨⟨hready, hext⟩, -⟩ := hsettles
      obtain ⟨hinv, hrel, hlinks⟩ := hends
      have hname : c.name = name := hfile.name_eq hlinks.declarations
      subst hname
      obtain ⟨habsent, hpool, hsettling⟩ :=
        settling_of_link hnone hfile rfl hfree hinv hrel hlinks
      show Settles _ _ _ _ (finishing c.name (register _ _ c.name file c m'))
      rw [register_eq_settle habsent hpool]
      exact settling_settles hidle h (hready.enter habsent harray hsettling.inv) hsettling hload

/-- The loader ends if the fuel is enough for the classes that are not being loaded. -/
theorem load_accepts {listed : List String}
    (hlisted : ∀ {name file}, host.path.Declares name file → name ∈ listed) (fuel : Nat)
    (hnodup : names.Nodup) (hsub : names ⊆ listed) :
    (host.load fuel).Accepts host.path names (fuel + names.length < listed.length + 2) := by
  induction fuel generalizing names with
  | zero =>
      intro n m _
      -- the names being loaded are distinct and listed, so there are no more than are listed
      have hlength := (List.subperm_of_subset hnodup hsub).length_le
      show 0 + names.length < _
      omega
  | succ fuel ih =>
      intro n m h
      have hhere : Ready host.path names m ∧ Extends m m := ⟨h, Extends.refl m⟩
      show Settles _ _ _ _ (loadWith host.path (host.load fuel) _ n m)
      cases harray : Descriptor.isArray n with
      | true => exact array_settles h harray
      | false =>
          cases hstanding : m.standing? n with
          | some p =>
              rw [loadWith_registered harray hstanding, if_neg (h.clean hstanding).1]
              exact ⟨hhere, p.2, hstanding⟩
          | none =>
              by_cases hmem : n ∈ m.loading
              · rw [loadWith_circular harray hstanding hmem]
                refine ⟨fun hgood => hgood.2 n ?_ .refl, hhere⟩
                rwa [← h.loading]
              · rw [show loadWith host.path (host.load fuel) _ n m = finishing n _ from
                  loadWith_fresh harray hstanding hmem]
                rcases readClassFile_cases host.path n (m.begin n) with ⟨file, hfile, -⟩ | ⟨f, hf⟩
                · have hnew : n ∉ names := h.loading ▸ hmem
                  have hnested := ih (List.nodup_cons.mpr ⟨hnew, hnodup⟩)
                    (List.cons_subset.mpr ⟨hlisted hfile, hsub⟩)
                  refine (fresh_settles hfixed hidle h harray hstanding hmem hfile hnested).mono
                    (fun _ h => h) id (fun hstops => ?_) fun _ _ _ h => h
                  rw [List.length_cons] at hstops
                  omega
                · rw [define, bind_of_error hf]
                  refine ⟨fun hgood => ?_, h.finish_absent hstanding
                    ⟨h.begin hstanding, Extends.refl _⟩⟩
                  cases hgood.1 with
                  | intro _ hfile =>
                      rw [hfixed.readClassFile hfile] at hf
                      cases hf

end

/-!
# Sequences of loads
-/

/-- The host has only ever asked for types to be loaded, whether or not that succeeded. -/
inductive Host.OnlyLoads (host : Host) : Machine → Prop where
  | empty : OnlyLoads host Machine.empty
  | load {m m' : Machine} (fuel : Nat) (name : String) (h : OnlyLoads host m)
      (hend : Finishes (host.load fuel name) m m') : OnlyLoads host m'

namespace Host

variable {host : Host} {rows : List (String × List UInt8)}
  (hpath : host.path = ClassPath.ofRows rows)
  (hidle : ∀ row ∈ rows, ∀ file, ClassFile.read row.2 = .ok file → file.Idle)

include hpath hidle

theorem accepts_of_rows (fuel : Nat) :
    (host.load fuel).Accepts host.path [] (fuel < rows.length + 2) := by
  have hfixed : host.path.Fixed := hpath ▸ ClassPath.ofRows_fixed rows
  have hrow {name : String} {file : ClassFile} (h : host.path.Declares name file) :
      ∃ bytes, (name, bytes) ∈ rows ∧ ClassFile.read bytes = .ok file := by
    rw [hpath] at h
    exact ClassPath.ofRows_declares h
  have hlisted {name : String} {file : ClassFile} (h : host.path.Declares name file) :
      name ∈ rows.map Prod.fst := by
    obtain ⟨bytes, hmem, -⟩ := hrow h
    exact List.mem_map.mpr ⟨_, hmem, rfl⟩
  have hquiet {name : String} {file : ClassFile} (h : host.path.Declares name file) :
      file.Idle := by
    obtain ⟨bytes, hmem, hread⟩ := hrow h
    exact hidle _ hmem file hread
  have haccepts := load_accepts hfixed hquiet hlisted fuel List.nodup_nil (List.nil_subset _)
  rwa [List.length_nil, Nat.add_zero, List.length_map] at haccepts

theorem OnlyLoads.ready (h : host.OnlyLoads m) : Ready host.path [] m := by
  induction h with
  | empty => exact .empty
  | load fuel name _ hend ih =>
      have hsettles := accepts_of_rows hpath hidle fuel name _ ih
      rcases hend with ⟨l, hl⟩ | ⟨f, hf⟩
      · rw [hl] at hsettles
        exact hsettles.1.1
      · rw [hf] at hsettles
        exact hsettles.2.1

/-- Every load ends, and the classes that the loader accepts are exactly those that can be loaded,
whatever was loaded before. -/
theorem load_ok_iff_loadable (h : host.OnlyLoads m) (name : String) {fuel : Nat}
    (hfuel : rows.length + 2 ≤ fuel) :
    (∃ m', Finishes (host.load fuel name) m m') ∧
      (Descriptor.isArray name = false →
        ((∃ l m', host.load fuel name m = .ok l m') ↔ host.path.Loadable name)) := by
  have hfixed : host.path.Fixed := hpath ▸ ClassPath.ofRows_fixed rows
  have hsettles := accepts_of_rows hpath hidle fuel name m (h.ready hpath hidle)
  cases hload : host.load fuel name m with
  | ok l m' =>
      rw [hload] at hsettles
      obtain ⟨⟨hready, -⟩, hgiven⟩ := hsettles
      refine ⟨⟨m', .inl ⟨l, hload⟩⟩, fun harray => ⟨fun _ => ?_, fun _ => ⟨l, m', rfl⟩⟩⟩
      cases l with
      | ofClass c =>
          obtain ⟨s, hs⟩ := hgiven
          exact hready.loadable hfixed hs
      | ofArray a =>
          rw [show Descriptor.isArray name = true from hgiven] at harray
          cases harray
  | error e m' =>
      rw [hload] at hsettles
      cases e with
      | outOfFuel =>
          have hstops : fuel < rows.length + 2 := hsettles
          omega
      | fault f =>
          refine ⟨⟨m', .inr ⟨f, hload⟩⟩, fun _ => ⟨?_, fun hloadable => ?_⟩⟩
          · rintro ⟨l, m'', hok⟩
            cases hok
          · exact absurd ⟨hloadable, List.forall_mem_nil _⟩ hsettles.1

end Host

namespace CircularClasses

/-!
`A` is a class of its own, `B` and `C` are each other's superclass, and `D` extends a class that is
missing.  First `D` and `B` are asked for.
-/

def rows : List (String × List UInt8) :=
  [Sample.root, ("A", Sample.file "A" (some rootName) [] []),
    ("B", Sample.file "B" (some "C") [] []), ("C", Sample.file "C" (some "B") [] []),
    ("D", Sample.file "D" (some "E") [] [])]

def host : Host :=
  ⟨ClassPath.ofRows rows, Native.library, 8, false⟩

def isIdle (file : ClassFile) : Bool :=
  file.fields.all (·.constantValue?.isNone) &&
    file.methods.all fun m => !(m.name == "<clinit>" && m.descriptor == "()V")

theorem isIdle_iff {file : ClassFile} : isIdle file = true ↔ file.Idle := by
  simp only [isIdle, Bool.and_eq_true, List.all_eq_true, Option.isNone_iff_eq_none,
    Bool.not_eq_true', Bool.and_eq_false_iff, beq_eq_false_iff_ne]
  constructor
  · rintro ⟨hconstants, hinitializer⟩
    refine ⟨hconstants, fun m hm hnamed => ?_⟩
    rcases hinitializer m hm with hname | hdescriptor
    · exact hname hnamed.1
    · exact hdescriptor hnamed.2
  · rintro ⟨hconstants, hinitializer⟩
    refine ⟨hconstants, fun m hm => ?_⟩
    by_cases hname : m.name = "<clinit>"
    · exact .inr fun hdescriptor => hinitializer m hm ⟨hname, hdescriptor⟩
    · exact .inl hname

def machine : Machine :=
  endOf (host.load 8 "B") (endOf (host.load 8 "D") Machine.empty)

theorem machine_facts :
    (rows.all fun row => match ClassFile.read row.2 with
        | .ok file => isIdle file
        | .error _ => true) = true ∧
      (faultOf (host.load 8 "D" Machine.empty) = some (.classNotFound "E") ∧
        faultOf (host.load 8 "B" (endOf (host.load 8 "D") Machine.empty)) =
          some (.malformed (.circularity "B"))) ∧
        (classOf (host.load 8 "A" machine)).isSome ∧
          faultOf (host.load 8 "C" machine) = some (.malformed (.circularity "C")) := by
  decide +kernel

/-- After two loads that fail, `A` can be loaded and is, and `C` cannot and is not. -/
theorem loaded_after_failures :
    host.OnlyLoads machine ∧ host.path.Loadable "A" ∧ ¬ host.path.Loadable "C" := by
  obtain ⟨hrows, ⟨hd, hb⟩, ha, hc⟩ := machine_facts
  have hidle : ∀ row ∈ rows, ∀ file, ClassFile.read row.2 = .ok file → file.Idle := by
    intro row hrow file hread
    have hrowIdle := List.all_eq_true.mp hrows row hrow
    rw [hread] at hrowIdle
    exact isIdle_iff.mp hrowIdle
  have hloads : host.OnlyLoads machine :=
    .load 8 "B" (.load 8 "D" .empty (.inr ⟨_, eq_error_of_faultOf hd⟩))
      (.inr ⟨_, eq_error_of_faultOf hb⟩)
  have hfuel : rows.length + 2 ≤ 8 := by decide
  refine ⟨hloads, ?_, fun hloadable => ?_⟩
  · obtain ⟨c, hok⟩ := eq_ok_of_classOf ha
    exact ((Host.load_ok_iff_loadable rfl hidle hloads "A" hfuel).2 (by decide)).mp ⟨_, _, hok⟩
  · obtain ⟨l, m', hok⟩ :=
      ((Host.load_ok_iff_loadable rfl hidle hloads "C" hfuel).2 (by decide)).mpr hloadable
    rw [hok] at hc
    cases hc

end CircularClasses

end Bytecode
