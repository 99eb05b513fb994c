import Bytecode.Proofs.Loading.Reachable
import Mathlib.Data.List.Nodup

/-!
# Classes at rest

When no class is being loaded, every registered class is initialized or has failed, with one
exception: if the class of objects that stand for types has failed, no object can be made for the
classes that are loaded afterwards, and they stay half-initialized.
-/

namespace Bytecode

open Machine

namespace Machine

theorem Orderly.standing?_entry {m : Machine} (h : m.Orderly) {e : Entry} (he : e ∈ m.classes) :
    m.standing? e.cls.name = some (e.cls, e.state) := by
  have hmem : (e.cls, e.state) ∈ m.standings := List.mem_map.mpr ⟨e, he, rfl⟩
  rw [standing?_eq_find?]
  cases hfind : m.standings.find? (·.1.name == e.cls.name) with
  | none =>
      rw [List.find?_eq_none] at hfind
      exact absurd (beq_self_eq_true e.cls.name) (hfind _ hmem)
  | some p =>
      have hname : p.1.name = e.cls.name := by
        simpa using List.find?_some hfind
      have heq := List.inj_on_of_nodup_map h.names (List.mem_of_find?_eq_some hfind) hmem hname
      rw [heq]

/-- When nothing is being loaded, only a failure of the class of objects that stand for types leaves
a class half-initialized. -/
theorem Orderly.linked_of_idle {m : Machine} (h : m.Orderly) (hidle : m.loading = [])
    {name : String} {c : Class} (hlinked : m.standing? name = some (c, .linked)) :
    m.ClassFailed := by
  rcases h.linked hlinked with hmem | hfailed
  · rw [hidle] at hmem
    cases hmem
  · exact hfailed

end Machine

/-- The constants of the class were assigned and its static initializer ran to its end, which is the
last that happened before the machine became `m`. -/
def Host.Initialized (host : Host) (fuel : Nat) (c : Class) (m : Machine) : Prop :=
  ∃ m₁ m₂,
    runInitializer (host.load fuel) (host.initializer fuel (host.load fuel)) c m₁ = .ok () m₂ ∧
      m = (m₂.setState c.name .initialized).finish c.name

section

variable {load : Loader} {invoke : Method → MachineM Unit} {m m' : Machine} {c c' : Class}

theorem enterInitialized_eq_ok (h : enterInitialized load invoke c m = .ok () m') :
    ∃ m₂, runInitializer load invoke c m = .ok () m₂ ∧ m' = m₂.setState c.name .initialized := by
  unfold enterInitialized at h
  cases hrun : runInitializer load invoke c m with
  | ok a m₂ =>
      rw [hrun] at h
      cases h
      exact ⟨m₂, rfl, rfl⟩
  | error e m₂ =>
      rw [hrun] at h
      cases e <;> cases h

theorem settle_eq_ok (h : settle load invoke c m = .ok c' m') :
    c' = c ∧ ∃ m₁ m₂, runInitializer load invoke c m₁ = .ok () m₂ ∧
      m' = m₂.setState c.name .initialized := by
  have hrest {m₁ : Machine} (h : (do enterInitialized load invoke c; return c : MachineM Class) m₁ =
      .ok c' m') :
      c' = c ∧ ∃ m₁ m₂, runInitializer load invoke c m₁ = .ok () m₂ ∧
        m' = m₂.setState c.name .initialized := by
    rcases bind_eq_ok h with ⟨⟨⟩, m₂, henter, hpure⟩
    cases hpure
    rcases enterInitialized_eq_ok henter with ⟨m₃, hrun, hm'⟩
    exact ⟨rfl, m₁, m₃, hrun, hm'⟩
  cases hclass : m.standing? classClassName with
  | none =>
      rw [settle_without hclass] at h
      exact hrest h
  | some p =>
      rw [settle_classObject hclass] at h
      rcases bind_eq_ok h with ⟨a, m₁, -, hsettle⟩
      exact hrest hsettle

end

namespace Host

variable {host : Host} {fuel : Nat} {name : String} {m m' : Machine} {c : Class}

section

variable (hnatives : host.natives.Lawful) (horderly : m.Orderly) (hidle : m.loading = [])
  (harray : Descriptor.isArray name = false) (hnone : m.standing? name = none)

include hnatives horderly hidle harray hnone

/-- How the load of a class that is not registered goes when nothing is being loaded: it ends early,
or its class is registered and settled. -/
theorem load_idle_cases (fuel : Nat) :
    (∃ e, ∃ m' : Machine, host.load (fuel + 1) name m = .error e (m'.finish name) ∧
        ∀ f, e = .fault f → m'.standing? name = none) ∨
      ∃ c m', c.name = name ∧ Entered host.path False m c m' ∧
        m'.registration? c.name >>= Entry.classObject = none ∧
          host.load (fuel + 1) name m =
            match settle (host.load fuel) (host.initializer fuel (host.load fuel)) c m' with
            | .ok c m'' => .ok (.ofClass c) (m''.finish name)
            | .error e m'' => .error e (m''.finish name) := by
  have hfree : name ∉ m.loading := by
    rw [hidle]
    exact List.not_mem_nil
  rw [load_succ, loadVia, loadWith_fresh harray hnone hfree]
  rcases define_cases (host.initializer fuel (host.load fuel))
    (host.initializer fuel (host.load fuel)) nofun (load_loads False hnatives nofun fuel)
    ⟨horderly, nofun⟩ nofun hnone hfree with
    ⟨e, m', heq, -, hend⟩ | ⟨c, m', hname, hentered, hunmade, heq, -⟩
  · rw [heq]
    refine .inl ⟨e, m', rfl, fun f hf => ?_⟩
    exact (hend f hf).2.1.absent List.mem_cons_self hnone
  · rw [heq]
    exact .inr ⟨c, m', hname, hentered, hunmade, rfl⟩

theorem initialized_of_load (h : host.load (fuel + 1) name m = .ok (.ofClass c) m') :
    host.Initialized fuel c m' := by
  rcases load_idle_cases hnatives horderly hidle harray hnone fuel with
    ⟨e, m₁, heq, -⟩ | ⟨c₁, m₁, hname, -, -, heq⟩
  · rw [heq] at h
    cases h
  · rw [heq] at h
    cases hsettle : settle (host.load fuel) (host.initializer fuel (host.load fuel)) c₁ m₁ with
    | error e m₂ =>
        rw [hsettle] at h
        cases h
    | ok c₂ m₂ =>
        rw [hsettle] at h
        cases h
        rcases settle_eq_ok hsettle with ⟨rfl, m₃, m₄, hrun, rfl⟩
        exact ⟨m₃, m₄, hrun, by rw [hname]⟩

/-- Once the class of objects that stand for types has failed, no other class can be initialized. -/
theorem load_of_classFailed (hfailed : m.ClassFailed) (fuel : Nat) :
    (∀ l m', host.load fuel name m ≠ .ok l m') ∧
      ∀ f m', host.load fuel name m = .error (.fault f) m' →
        m'.standing? name = none ∨ ∃ c, m'.standing? name = some (c, .linked) := by
  cases fuel with
  | zero =>
      have hload : host.load 0 name m = .error .outOfFuel m := rfl
      rw [hload]
      constructor
      · nofun
      · intro f m' hm'
        cases hm'
  | succ fuel =>
      -- the load ends early, or stops for want of an object that stands for the class
      rcases load_idle_cases hnatives horderly hidle harray hnone fuel with
        ⟨e, m₁, heq, hend⟩ | ⟨c₁, m₁, rfl, hentered, hunmade, heq⟩
      · rw [heq]
        constructor
        · nofun
        · intro f m' hm'
          cases hm'
          exact .inl (hend f rfl)
      · rcases hfailed with ⟨cls, hcls⟩
        rw [heq]
        rcases settle_of_classFailed (load_prompt host fuel)
          ⟨cls, hentered.registers.standing hcls⟩ hunmade with hsettle | hsettle
        · rw [hsettle]
          constructor
          · nofun
          · intro f m' hm'
            cases hm'
        · rw [hsettle]
          constructor
          · nofun
          · intro f m' hm'
            cases hm'
            exact .inr ⟨c₁, hentered.registers.own⟩

end

/-- When nothing is being loaded, a half-initialized class is there only if the class of objects
that stand for types has failed, and only then can a load hand one out; a class that is loaded anew
was initialized to its end.  Once that class has failed, no class loaded afterwards gets further
than being registered. -/
theorem initialized_at_rest (hnatives : host.natives.Lawful) (hreach : host.Reachable m)
    (hidle : m.loading = []) :
    (∀ e ∈ m.classes, e.state = .linked → m.ClassFailed) ∧
      (∀ fuel name c m', host.load fuel name m = .ok (.ofClass c) m' →
        m'.standing? name = some (c, .initialized) ∨
          m'.standing? name = some (c, .linked) ∧ m'.ClassFailed) ∧
      (∀ fuel name c m', Descriptor.isArray name = false → m.standing? name = none →
        host.load (fuel + 1) name m = .ok (.ofClass c) m' → host.Initialized fuel c m') ∧
      (m.ClassFailed → ∀ fuel name, Descriptor.isArray name = false → m.standing? name = none →
        (∀ l m', host.load fuel name m ≠ .ok l m') ∧
          ∀ f m', host.load fuel name m = .error (.fault f) m' →
            m'.standing? name = none ∨ ∃ c, m'.standing? name = some (c, .linked)) := by
  have horderly := hreach.orderly hnatives
  refine ⟨?_, ?_, ?_, ?_⟩
  · intro e he hlinked
    have hstanding := horderly.standing?_entry he
    rw [hlinked] at hstanding
    exact horderly.linked_of_idle hidle hstanding
  · intro fuel name c m' hload
    have hloads := load_loads False hnatives nofun fuel name m ⟨horderly, nofun⟩ nofun
    rw [hload] at hloads
    rcases hloads with ⟨-, ⟨horderly', -⟩, hext, s, hstanding, hs⟩
    cases s with
    | initialized => exact .inl hstanding
    | erroneous => exact absurd rfl hs
    | linked =>
        have hidle' : m'.loading = [] := hext.loading.trans hidle
        exact .inr ⟨hstanding, horderly'.linked_of_idle hidle' hstanding⟩
  · intro fuel name c m' harray hnone hload
    exact initialized_of_load hnatives horderly hidle harray hnone hload
  · intro hfailed fuel name harray hnone
    exact load_of_classFailed hnatives horderly hidle harray hnone hfailed fuel

end Host

namespace FailedClass

/-!
The class of objects that stand for types divides by zero in its initializer, and `X` is loaded
afterwards.
-/

/-- `iconst_0; iconst_0; idiv; pop; return` -/
def division : List UInt8 := [0x03, 0x03, 0x6C, 0x57, 0xB1]

def host : Host :=
  Sample.host [
    (classClassName, Sample.file classClassName (some rootName) [] [Sample.initializer division]),
    ("X", Sample.file "X" (some rootName) [] [])]

def machine : Machine :=
  endOf (host.load 8 "X") (endOf (host.load 8 classClassName) Machine.empty)

theorem machine_facts :
    (faultOf (host.load 8 classClassName Machine.empty) = some (.zeroDivisor .quotient) ∧
        faultOf (host.load 8 "X" (endOf (host.load 8 classClassName) Machine.empty)) =
          some (.illegal (.failedEarlier classClassName))) ∧
      machine.loading = [] ∧ (machine.standing? "X").map Prod.snd = some .linked ∧
        (machine.standing? "Y").isNone := by
  decide +kernel

theorem machine_atRest : host.AtRest machine := by
  rcases machine_facts with ⟨⟨hclass, hx⟩, -⟩
  unfold machine
  exact (Host.AtRest.empty.load_fault hclass).load_fault hx

theorem machine_standing : ∃ c, machine.standing? "X" = some (c, .linked) := by
  rcases Option.map_eq_some_iff.mp machine_facts.2.2.1 with ⟨⟨c, s⟩, hstanding, hs⟩
  cases hs
  exact ⟨c, hstanding⟩

/-- At rest, `X` is half-initialized, and the loader hands it out as it is. -/
theorem half_initialized_at_rest :
    host.AtRest machine ∧ machine.loading = [] ∧
      ∃ c, machine.standing? "X" = some (c, .linked) ∧
        host.load 8 "X" machine = .ok (.ofClass c) machine := by
  rcases machine_standing with ⟨c, hstanding⟩
  have hload := host.load_registered 7 (by decide) hstanding
  rw [if_neg nofun] at hload
  exact ⟨machine_atRest, machine_facts.2.1, c, hstanding, hload⟩

theorem initialized_at_rest_of_failure :
    host.Reachable machine ∧ machine.loading = [] ∧ machine.ClassFailed ∧
      ∀ fuel l m', host.load fuel "Y" machine ≠ .ok l m' := by
  have hreach : host.Reachable machine := .inl machine_atRest
  have hidle : machine.loading = [] := machine_facts.2.1
  have hrest := Host.initialized_at_rest Native.library_lawful hreach hidle
  rcases machine_standing with ⟨c, hstanding⟩
  rcases exists_entry hstanding with ⟨e, he, -, hlinked⟩
  have hfailed := hrest.1 e he hlinked
  have hnone : machine.standing? "Y" = none := Option.isNone_iff_eq_none.mp machine_facts.2.2.2
  exact ⟨hreach, hidle, hfailed, fun fuel =>
    (hrest.2.2.2 hfailed fuel "Y" (by decide) hnone).1⟩

end FailedClass

end Bytecode
