import Bytecode.ClassFile.Layout
import Bytecode.Proofs.Contract.Session
import Bytecode.Proofs.Loading.Load

/-!
# Machines that can be reached

A machine is at rest between the requests of a host.  While a request is carried out, the loader is
asked for types and threads run, and this can be nested: loading a type can run code, and running
code can load types.  Every machine in which the loader is asked for a type or an instruction is
executed is in order.
-/

namespace Bytecode

open Machine Contract

variable {ι α β : Type}

/-- The request asks the oracle for `i` when the machine is `m'`: another answer there would change
the outcome. -/
def Consults (x : (ι → MachineM α) → MachineM β) (oracle : ι → MachineM α) (m : Machine) (i : ι)
    (m' : Machine) : Prop :=
  ∃ other : ι → MachineM α,
    (∀ j s, ¬ (j = i ∧ s = m') → other j s = oracle j s) ∧ x other m ≠ x oracle m

def Finishes (x : MachineM α) (m m' : Machine) : Prop :=
  (∃ a, x m = .ok a m') ∨ ∃ f, x m = .error (.fault f) m'

namespace Host

def initializer (host : Host) (fuel : Nat) (load : Loader) (method : Method) : MachineM Unit := do
  let _ ← Thread.invoke host load fuel method []

def loadVia (host : Host) (fuel : Nat) (load : Loader) : Loader :=
  loadWith host.path load (host.initializer fuel load)

theorem load_succ (host : Host) (fuel : Nat) :
    host.load (fuel + 1) = host.loadVia fuel (host.load fuel) := rfl

inductive AtRest (host : Host) : Machine → Prop where
  | empty : AtRest host Machine.empty
  /-- The host changes objects, static fields or output. -/
  | write {m m' : Machine} (hrest : AtRest host m) (hwork : Works m m') : AtRest host m'
  | request {m m' : Machine} (r : Request) (fuel : Nat) (hrest : AtRest host m)
      (hend : Finishes (r.run host fuel) m m') : AtRest host m'

inductive Asked (host : Host) : String → Machine → Prop where
  | top {m : Machine} (name : String) (hrest : AtRest host m) : Asked host name m
  /-- A method that the host calls asks for a type. -/
  | call {m m' : Machine} {name : String} (fuel : Nat) (method : Method) (arguments : List Value)
      (hrest : AtRest host m)
      (hconsult : Consults (fun load => Thread.invoke host load fuel method arguments)
        (host.load fuel) m name m') :
      Asked host name m'
  /-- A load asks for another type, to link its class or while its initializer runs. -/
  | nested {m m' : Machine} {outer name : String} (fuel : Nat) (hasked : Asked host outer m)
      (hconsult : Consults (fun load => host.loadVia fuel load outer) (host.load fuel) m name m') :
      Asked host name m'

inductive Running (host : Host) : Thread → Prop where
  /-- The host calls a method. -/
  | call {m : Machine} {t : Thread} (method : Method) (arguments : List Slot)
      (hrest : AtRest host m)
      (hpush : Thread.pushFrame host method arguments ⟨m, [], none⟩ = .ok () t) : Running host t
  /-- A load runs a static initializer. -/
  | initializer {m m' : Machine} {name : String} {method : Method} {t : Thread} (fuel : Nat)
      (hasked : Asked host name m)
      (hconsult : Consults (fun invoke => loadWith host.path (host.load fuel) invoke name)
        (host.initializer fuel (host.load fuel)) m method m')
      (hpush : Thread.pushFrame host method [] ⟨m', [], none⟩ = .ok () t) : Running host t
  | step {t t' : Thread} (fuel : Nat) (hrun : Running host t)
      (hstep : Thread.step host (host.load fuel) 0 t = .ok () t') : Running host t'

/-- The machine of some moment between or during requests. -/
def Reachable (host : Host) (m : Machine) : Prop :=
  host.AtRest m ∨ (∃ name, host.Asked name m) ∨ ∃ t, host.Running t ∧ t.machine = m

/-!
# The loader of a host
-/

variable {host : Host} {strict : Prop}

theorem load_prompt (host : Host) (fuel : Nat) : Prompt (host.load fuel) := by
  cases fuel with
  | zero => exact fun _ _ => .inl rfl
  | succ fuel => exact loadWith_prompt _ _ _

theorem load_registered {name : String} {m : Machine} {c : Class} {s : ClassState}
    (host : Host) (fuel : Nat) (harray : Descriptor.isArray name = false)
    (h : m.standing? name = some (c, s)) :
    host.load (fuel + 1) name m =
      if s = .erroneous then .error (.fault (.illegal (.failedEarlier name))) m
      else .ok (.ofClass c) m :=
  loadWith_registered harray h

theorem runs_of_loads (hnatives : host.natives.Lawful) {load₁ load₂ : Loader}
    (h : Loads host.path strict load₁ load₂) (fuel : Nat) :
    Runs host.path strict (host.initializer fuel load₁) (host.initializer fuel load₂) :=
  fun method => (invoke_same hnatives h.opened fuel method []).bind fun _ => .pure ()

theorem loadVia_loads (hnatives : host.natives.Lawful) (hpath : strict → host.path.Plain)
    {load₁ load₂ : Loader} (h : Loads host.path strict load₁ load₂) (hprompt : Prompt load₁)
    (fuel : Nat) :
    Loads host.path strict (host.loadVia fuel load₁) (host.loadVia fuel load₂) :=
  loadWith_loads hpath h hprompt (runs_of_loads hnatives h fuel)

/-- Loads keep the machine in order, however deep they nest. -/
theorem load_loads (strict : Prop) (hnatives : host.natives.Lawful)
    (hpath : strict → host.path.Plain) (fuel : Nat) :
    Loads host.path strict (host.load fuel) (host.load fuel) := by
  induction fuel with
  | zero =>
      intro name m _ _
      exact ⟨rfl, trivial⟩
  | succ fuel ih => exact loadVia_loads hnatives hpath ih (load_prompt host fuel) fuel

theorem loaders_opened (hnatives : host.natives.Lawful) (hpath : strict → host.path.Plain)
    (fuel : Nat) : (opened host.path strict).Loaders (host.load fuel) (host.load fuel) :=
  (load_loads strict hnatives hpath fuel).opened

/-!
# Order of reachable machines
-/

theorem AtRest.inv (strict : Prop) (hnatives : host.natives.Lawful)
    (hpath : strict → host.path.Plain) {m : Machine} (h : host.AtRest m) :
    (opened host.path strict).inv m ∧ m.loading = [] := by
  induction h with
  | empty => exact ⟨⟨⟨Orderly.empty, fun _ => .nil⟩, fun _ => nofun⟩, rfl⟩
  | write _ hwork ih =>
      exact ⟨((opened host.path strict).work ih.1 hwork).1, hwork.loading.trans ih.2⟩
  | request r fuel _ hend ih =>
      rcases request_same (loaders_opened hnatives hpath fuel) hnatives r _ ih.1 trivial with
        ⟨-, hends⟩
      rcases hend with ⟨a, ha⟩ | ⟨f, hf⟩
      · rw [ha] at hends
        exact ⟨hends.1, hends.2.1.loading.trans ih.2⟩
      · rw [hf] at hends
        exact ⟨hends.1, hends.2.1.loading.trans ih.2⟩

/-- A loader that differs from another one only where it may not be asked is as good. -/
theorem Loads.congr {path : ClassPath} {load other : Loader} {name : String} {m : Machine}
    (h : Loads path strict load load)
    (hother : ∀ n s, ¬ (n = name ∧ s = m) → other n s = load n s)
    (hm : ¬ ((order path strict).inv m ∧ (strict → m.Justified path name))) :
    Loads path strict load other := by
  intro n s hinv hjust
  refine ⟨(hother n s ?_).symm, (h n s hinv hjust).2⟩
  rintro ⟨rfl, rfl⟩
  exact hm ⟨hinv, hjust⟩

theorem Asked.inv (strict : Prop) (hnatives : host.natives.Lawful)
    (hpath : strict → host.path.Plain) {name : String} {m : Machine} (h : host.Asked name m) :
    (order host.path strict).inv m ∧ (strict → m.Justified host.path name) := by
  induction h with
  | top name hrest =>
      rcases (hrest.inv strict hnatives hpath).1 with ⟨hinv, hopen⟩
      exact ⟨hinv, fun hstrict => (hopen hstrict).justified (hinv.2 hstrict) name⟩
  | call fuel method arguments hrest hconsult =>
      by_contra hm
      rcases hconsult with ⟨other, hother, hne⟩
      have hloads := Loads.congr (load_loads strict hnatives hpath fuel) hother hm
      have hsame := invoke_same hnatives hloads.opened fuel method arguments
      exact hne (hsame _ (hrest.inv strict hnatives hpath).1 trivial).1.symm
  | nested fuel hasked hconsult ih =>
      by_contra hm
      rcases hconsult with ⟨other, hother, hne⟩
      have hloads := Loads.congr (load_loads strict hnatives hpath fuel) hother hm
      have hsame := loadVia_loads hnatives hpath hloads (load_prompt host fuel) fuel
      exact hne (hsame _ _ ih.1 ih.2).1.symm

theorem Running.inv (strict : Prop) (hnatives : host.natives.Lawful)
    (hpath : strict → host.path.Plain) {t : Thread} (h : host.Running t) :
    (opened host.path strict).thread.inv t := by
  have hpushed {m : Machine} {method : Method} {arguments : List Slot} {t : Thread}
      (hinv : (opened host.path strict).inv m)
      (hpush : Thread.pushFrame host method arguments ⟨m, [], none⟩ = .ok () t) :
      (opened host.path strict).thread.inv t := by
    rcases pushFrame_same (C := opened host.path strict) host method arguments ⟨m, [], none⟩
      ⟨hinv, nofun⟩ trivial with ⟨-, hends⟩
    rw [hpush] at hends
    exact hends.1
  induction h with
  | call method arguments hrest hpush => exact hpushed (hrest.inv strict hnatives hpath).1 hpush
  | @initializer m m' name method t fuel hasked hconsult hpush =>
      refine hpushed ?_ hpush
      by_contra hm
      rcases hconsult with ⟨other, hother, hne⟩
      have hloads := load_loads strict hnatives hpath fuel
      have hruns : Runs host.path strict (host.initializer fuel (host.load fuel)) other := by
        intro method' s hinv _
        refine ⟨(hother method' s ?_).symm,
          (runs_of_loads hnatives hloads fuel method' s hinv trivial).2⟩
        rintro ⟨rfl, rfl⟩
        exact hm hinv
      rcases hasked.inv strict hnatives hpath with ⟨hinv, hjust⟩
      exact hne (loadWith_loads hpath hloads (load_prompt host fuel) hruns _ _ hinv hjust).1.symm
  | step fuel _ hstep ih =>
      rcases thread_step_same hnatives (loaders_opened hnatives hpath fuel) 0 _ ih trivial with
        ⟨-, hends⟩
      rw [hstep] at hends
      exact hends.1

theorem Reachable.orderly (hnatives : host.natives.Lawful) {m : Machine}
    (h : host.Reachable m) : m.Orderly := by
  rcases h with hrest | ⟨name, hasked⟩ | ⟨t, hrun, rfl⟩
  · exact (hrest.inv False hnatives nofun).1.1.1
  · exact (hasked.inv False hnatives nofun).1.1
  · exact (hrun.inv False hnatives nofun).1.1.1

end Host

/-!
# Small class files
-/

def faultOf {σ : Type} : EStateM.Result Halt σ α → Option Fault
  | .error (.fault f) _ => some f
  | _ => none

def endOf (x : MachineM α) (m : Machine) : Machine :=
  match x m with
  | .ok _ m' => m'
  | .error _ m' => m'

theorem eq_error_of_faultOf {x : MachineM α} {m : Machine} {f : Fault}
    (h : faultOf (x m) = some f) : x m = .error (.fault f) (endOf x m) := by
  unfold endOf
  cases hx : x m with
  | ok a m' =>
      rw [hx] at h
      cases h
  | error e m' =>
      rw [hx] at h
      cases e with
      | fault g =>
          cases h
          rfl
      | outOfFuel => cases h

def classOf {σ : Type} : EStateM.Result Halt σ Loaded → Option Class
  | .ok (.ofClass c) _ => some c
  | _ => none

theorem eq_ok_of_classOf {x : MachineM Loaded} {m : Machine} (h : (classOf (x m)).isSome) :
    ∃ c, x m = .ok (.ofClass c) (endOf x m) := by
  unfold endOf
  cases hx : x m with
  | ok l m' =>
      rw [hx] at h
      cases l with
      | ofClass c => exact ⟨c, rfl⟩
      | ofArray a => cases h
  | error e m' =>
      rw [hx] at h
      cases h

theorem Host.AtRest.load_fault {host : Host} {m : Machine} {fuel : Nat} {name : String} {f : Fault}
    (hrest : host.AtRest m) (h : faultOf (host.load fuel name m) = some f) :
    host.AtRest (endOf (host.load fuel name) m) := by
  refine .request (.load name) fuel hrest (.inr ⟨f, ?_⟩)
  show EStateM.map _ (host.load fuel name) m = _
  rw [EStateM.map, eq_error_of_faultOf h]

namespace Sample

/-- Bytes of a class with the given superclass.  Further constants stand from index eight on. -/
def file (name : String) (superName : Option String) (constants : List Constant)
    (methods : List MemberLayout) : List UInt8 :=
  ClassLayout.bytes
    { minor := 0, major := 52
      constants := [.utf8 name, .classRef 1, .utf8 (superName.getD ""), .classRef 3, .utf8 "Code",
        .utf8 "<clinit>", .utf8 "()V"] ++ constants
      access := 0x21
      thisClass := 2
      superClass := if superName.isSome then 4 else 0
      interfaces := [], fields := [], methods, attributes := [] }

def initializer (code : List UInt8) : MemberLayout :=
  ⟨0x0008, 6, 7, [.code 5 ⟨2, 0, code, []⟩ []]⟩

def root : String × List UInt8 :=
  (rootName, file rootName none [] [])

def host (rows : List (String × List UInt8)) : Host :=
  ⟨ClassPath.ofRows (root :: rows), Native.library, 8, false⟩

end Sample
end Bytecode
