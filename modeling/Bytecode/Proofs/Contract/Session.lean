import Bytecode.Proofs.Contract.Thread
import Bytecode.Proofs.Dialogue.Basic

/-!
# Requests of a host under a charter

Whatever a host asks of the machine keeps every charter that its surroundings keep, as long as the
methods that it calls belong to registered classes.
-/

namespace Bytecode

/-- What a host can ask of the machine. -/
inductive Request where
  | load (name : String)
  | bootstrap
  | start (program : Host.Program)
  | invoke (method : Method) (arguments : List Value)
  | invokeStatic (owner name descriptor : String) (arguments : List Value)
  | newObject (name : String)
  | newArray (name : String) (length : Int32)
  | newMultiArray (name : String) (lengths : List Int32)
  | newString (text : String)
  | typeObject (name : String)
  | primitiveClassObject (name : String)
  | classObject (name : String)

namespace Request

def run (host : Host) (fuel : Nat) : Request → MachineM Unit
  | load name => discard (host.load fuel name)
  | bootstrap => host.bootstrap fuel
  | start program => host.start fuel program
  | invoke method arguments => discard (host.invoke fuel method arguments)
  | invokeStatic owner name descriptor arguments =>
      discard (host.invokeStatic fuel owner name descriptor arguments)
  | newObject name => discard (host.newObject fuel name)
  | newArray name length => discard (Machine.newArray (host.load fuel) name length)
  | newMultiArray name lengths => discard (Machine.newMultiArray (host.load fuel) name lengths)
  | newString text => discard (Machine.newString (host.load fuel) text)
  | typeObject name => discard (Machine.typeObject (host.load fuel) name)
  | primitiveClassObject name => discard (Machine.primitiveClassObject (host.load fuel) name)
  | classObject name => discard (Machine.classObject (host.load fuel) name)

end Request

/-!
# Requests and their surroundings
-/

namespace Oracle

def loadClass (o : Oracle) (name : String) : MachineM Class :=
  o.load.loadClass name

def loadOptional (o : Oracle) (name : String) : MachineM Unit := fun m =>
  match o.loadClass name m with
  | .ok _ m => .ok () m
  | .error (.fault (.classNotFound _)) m => .ok () m
  | .error e m => .error e m

def bootstrap (o : Oracle) : MachineM Unit := do
  let _ ← o.loadClass rootName
  o.loadOptional stringName
  o.loadOptional classClassName
  let m ← get
  if m.isRegistered classClassName then
    m.classes.forM fun e => do
      let _ ← Machine.classObject o.load e.cls.name

def newObject (o : Oracle) (name : String) : MachineM Nat := do
  let c ← o.loadClass name
  Machine.alloc (.ofInstance (.ofClass c))

def invokeStatic (o : Oracle) (owner name descriptor : String) (arguments : List Value) :
    MachineM (Option Value) := do
  let c ← o.loadClass owner
  let some method := c.method? name descriptor
    | fail (.unresolved (.method owner name descriptor))
  if !method.isStatic then illegal (.notStatic method.label)
  o (.run method arguments)

def start (o : Oracle) (program : Host.Program) : MachineM Unit := do
  let mainClass := program.className
  modify (·.note program.startRecord)
  o.bootstrap
  let c ← o.loadClass mainClass
  let mainDescriptor := "([Ljava/lang/String;)V"
  let some method := (c.declaredMethod? "main" mainDescriptor).filter (·.isStatic)
    | fail (.unresolved (.staticMethod "main" mainDescriptor mainClass))
  let arguments ←
    Machine.newArray o.load "[Ljava/lang/String;" (Int32.ofNat program.arguments.length)
  Native.storeTexts o.load arguments 0 program.arguments
  let _ ← o (.run method [.reference (some arguments)])
  modify (·.note program.finishRecord)

def initializer (o : Oracle) (method : Method) : MachineM Unit := do
  let _ ← o (.run method [])

end Oracle

def Request.via (o : Oracle) : Request → MachineM Unit
  | load name => discard (o.load name)
  | bootstrap => o.bootstrap
  | start program => o.start program
  | invoke method arguments => discard (o (.run method arguments))
  | invokeStatic owner name descriptor arguments =>
      discard (o.invokeStatic owner name descriptor arguments)
  | newObject name => discard (o.newObject name)
  | newArray name length => discard (Machine.newArray o.load name length)
  | newMultiArray name lengths => discard (Machine.newMultiArray o.load name lengths)
  | newString text => discard (Machine.newString o.load text)
  | typeObject name => discard (Machine.typeObject o.load name)
  | primitiveClassObject name => discard (Machine.primitiveClassObject o.load name)
  | classObject name => discard (Machine.classObject o.load name)

/-- What a host answers to the questions of a request. -/
def Host.oracle (host : Host) (fuel : Nat) : Oracle
  | .load name => host.load fuel name
  | .run method arguments => host.invoke fuel method arguments

theorem Request.via_oracle (host : Host) (fuel : Nat) (r : Request) :
    r.via (host.oracle fuel) = r.run host fuel := by
  cases r <;> rfl

/-!
# Charters
-/

namespace Charter

variable {C : Charter} {o₁ o₂ : Oracle}

structure Oracles (C : Charter) (o₁ o₂ : Oracle) : Prop where
  load : C.Loaders o₁.load o₂.load
  run : ∀ method arguments, C.Alike (C.Calls method) (fun _ _ => True)
    (o₁ (.run method arguments)) (o₂ (.run method arguments))

theorem oracle_oracles {host : Host} {fuel : Nat} (hnatives : host.natives.Keeps C)
    (h : C.Loaders (host.load fuel) (host.load fuel)) :
    C.Oracles (host.oracle fuel) (host.oracle fuel) :=
  ⟨h, fun method arguments => invoke_alike hnatives h fuel method arguments⟩

section

variable (h : C.Oracles o₁ o₂)

include h

theorem loadOptional_same (name : String) :
    C.Same (o₁.loadOptional name) (o₂.loadOptional name) := by
  intro m hinv _
  rcases loadClass_same h.load name m hinv trivial with ⟨heq, hends⟩
  unfold Oracle.loadOptional Oracle.loadClass
  rw [heq]
  refine ⟨rfl, ?_⟩
  rw [heq] at hends
  cases hload : o₂.load.loadClass name m with
  | ok c m' =>
      rw [hload] at hends
      exact hends
  | error e m' =>
      rw [hload] at hends
      cases e with
      | outOfFuel => trivial
      | fault f =>
          cases f with
          | classNotFound _ => exact ⟨hends.1, hends.2.1, trivial⟩
          | _ => exact hends

theorem bootstrap_same : C.Same o₁.bootstrap o₂.bootstrap := by
  have hobjects (entries : List Entry) :
      C.Same
        (entries.forM fun e => do let _ ← Machine.classObject o₁.load e.cls.name)
        (entries.forM fun e => do let _ ← Machine.classObject o₂.load e.cls.name) := by
    induction entries with
    | nil => exact .pure ()
    | cons e entries ih =>
        exact ((classObject_same (loadClass_has h.load _) e.cls.name).bind fun _ =>
          .pure ()).bind fun _ => ih
  exact (loadClass_same h.load _).bind fun _ => (loadOptional_same h _).bind fun _ =>
    (loadOptional_same h _).bind fun _ => .get_bind fun m =>
      .ite (fun _ => hobjects m.classes) fun _ => .pure ()

theorem newObject_request_same (name : String) : C.Same (o₁.newObject name) (o₂.newObject name) :=
  (loadClass_has h.load name).bind fun c => alloc_alike (.ofInstance (.ofClass c))

theorem invokeStatic_request_same (owner name descriptor : String) (arguments : List Value) :
    C.Same (o₁.invokeStatic owner name descriptor arguments)
      (o₂.invokeStatic owner name descriptor arguments) := by
  refine (loadClass_has h.load owner).bind fun c => ?_
  cases hmethod : c.method? name descriptor with
  | none => exact .fail (C.ordinary nofun)
  | some method =>
      refine .ite (fun _ => .fail_bind (C.ordinary nofun)) fun _ => ?_
      exact (h.run method arguments).mono (fun _ hinv hc => calls_method hinv hc hmethod)
        fun _ _ _ hq => hq

variable (C) in
omit h in
theorem note_request_same (r : Record) :
    C.Same (modify fun m : Machine => m.note r) (modify fun m : Machine => m.note r) :=
  modify_same (fun _ => ⟨rfl, rfl, rfl, rfl⟩) (fun _ => rfl) fun _ hm => hm.congr rfl rfl rfl rfl

theorem start_same (program : Host.Program) : C.Same (o₁.start program) (o₂.start program) := by
  refine (note_request_same C _).bind fun _ => (bootstrap_same h).bind fun _ =>
    (loadClass_has h.load _).bind fun c => ?_
  dsimp only
  cases hmain : (c.declaredMethod? "main" "([Ljava/lang/String;)V").filter (·.isStatic) with
  | none => exact .fail (C.ordinary nofun)
  | some method =>
      have hmem : method ∈ c.methods :=
        List.mem_of_find?_eq_some (Option.filter_eq_some_iff.mp hmain).1
      have hcalls {m : Machine} (hc : C.Has c m) : C.Calls method m := fun hg => ⟨c, hc hg, hmem⟩
      refine (((newArray_same h.load _ _).along Has.keep).bind fun a =>
        ((storeTexts_same h.load a _ _).along Has.keep).bind fun _ => ?_)
      exact ((h.run method _).mono (fun _ _ hc => hcalls hc) fun _ _ _ hq => hq).bind fun _ =>
        note_request_same C _

end

end Charter

def Request.Fits (m : Machine) : Request → Prop
  | invoke method _ => m.HasMethod method
  | _ => True

/-- Every request of a host keeps every charter that its surroundings keep. -/
theorem Charter.request_alike {C : Charter} {o₁ o₂ : Oracle} (h : C.Oracles o₁ o₂) (r : Request) :
    C.Alike (fun m => C.grounded → r.Fits m) (fun _ _ => True) (r.via o₁) (r.via o₂) := by
  cases r with
  | load name => exact ((h.load name).same.map _).alike
  | bootstrap => exact (bootstrap_same h).alike
  | start program => exact (start_same h program).alike
  | invoke method arguments => exact (h.run method arguments).map _
  | invokeStatic owner name descriptor arguments =>
      exact ((invokeStatic_request_same h owner name descriptor arguments).map _).alike
  | newObject name => exact ((newObject_request_same h name).map _).alike
  | newArray name length => exact ((newArray_same h.load name length).map _).alike
  | newMultiArray name lengths => exact ((newMultiArray_same h.load name lengths).map _).alike
  | newString text => exact ((newString_same h.load text).map _).alike
  | typeObject name => exact ((typeObject_same h.load name).map _).alike
  | primitiveClassObject name =>
      exact ((primitiveClassObject_same (loadClass_has h.load _) name).map _).alike
  | classObject name => exact ((classObject_same (loadClass_has h.load _) name).map _).alike

theorem Contract.request_same {C : Contract} {host : Host} {fuel : Nat}
    (h : C.Loaders (host.load fuel) (host.load fuel)) (hnatives : host.natives.Lawful)
    (r : Request) : C.Same (r.run host fuel) (r.run host fuel) := by
  rw [← Request.via_oracle]
  exact (Charter.request_alike (Charter.oracle_oracles (hnatives.keeps C) h) r).mono
    (fun _ _ _ => False.elim) fun _ _ _ hq => hq

end Bytecode
