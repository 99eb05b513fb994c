import Bytecode.Proofs.Contract.Session
import Bytecode.Proofs.Dialogue.Thread

/-!
# Requests of a host in dialogue

Whatever a host asks of the machine depends on the host only through the types that are loaded and
the methods that are run on the way.
-/

namespace Bytecode

open Machine Scene

def Oracle.optional : EStateM.Result Halt Machine Class → EStateM.Result Halt Machine Unit
  | .ok _ m => .ok () m
  | .error (.fault (.classNotFound _)) m => .ok () m
  | .error e m => .error e m

namespace Conduct

variable (K : Conduct)

theorem loadOptional_speaks (name : String) : K.scene.Speaks fun o => o.loadOptional name := by
  apply (loadClass_speaks K name).finish Oracle.optional (fun _ _ => rfl)
    fun m => ⟨m, rfl⟩
  intro m r _ hr
  cases r with
  | ok c m' => exact ⟨hr, K.rel_refl _⟩
  | error e m' =>
      cases e with
      | outOfFuel => exact ⟨hr, K.rel_refl _⟩
      | fault f =>
          cases f with
          | classNotFound _ => exact ⟨⟨hr.1, hr.2.1, trivial⟩, K.rel_refl _⟩
          | _ => exact ⟨hr, K.rel_refl _⟩

theorem bootstrap_speaks : K.scene.Speaks fun o => o.bootstrap := by
  have hobjects (entries : List Entry) :
      K.scene.Speaks fun o =>
        entries.forM fun e => (do let _ ← Machine.classObject o.load e.cls.name) := by
    induction entries with
    | nil => exact .pure ()
    | cons e entries ih =>
        exact ((classObject_speaks K e.cls.name).bind fun _ => .pure ()).bind fun _ => ih
  exact (loadClass_speaks K _).bind fun _ => (loadOptional_speaks K _).bind fun _ =>
    (loadOptional_speaks K _).bind fun _ => .get_bind fun m =>
      .ite (fun _ => hobjects m.classes) fun _ => .pure ()

theorem newObject_request_speaks (name : String) : K.scene.Speaks fun o => o.newObject name := by
  refine Talks.bind (loadClass_talks K name) fun c => .assume fun m _ hc => ?_
  have hmade : K.scene.Speaks fun _ => alloc (.ofInstance (.ofClass c)) :=
    alloc_speaks K fun ht => Instance.ofClass_typed (K.honest hc ht)
  exact hmade.talks

theorem note_request_speaks (r : Record) : K.scene.Speaks fun _ => modify (·.note r) :=
  .of_same (.modify fun _ hinv => work_of_eq hinv ⟨rfl, rfl, rfl, rfl⟩ rfl rfl rfl rfl)

section

variable (hruns : K.runs)

include hruns

theorem run_query_speaks (method : Method) (arguments : List Value) :
    K.scene.Speaks fun o => o (.run method arguments) := by
  intro m hinv _
  have hask : K.manner.asks (.begun m) (.run method arguments) m :=
    ⟨hinv, K.rel_refl m, fun _ => hruns⟩
  apply Dialogue.ask (q := .run method arguments) (k := fun r _ => r) hask
  · exact fun m' => ⟨m', fun _ => rfl⟩
  · intro r hr
    exact .done (fun _ => K.rel_refl _) hr

theorem invokeStatic_request_speaks (owner name descriptor : String) (arguments : List Value) :
    K.scene.Speaks fun o => o.invokeStatic owner name descriptor arguments := by
  refine (loadClass_speaks K owner).bind fun c => ?_
  cases c.method? name descriptor with
  | none => exact .fail (K.plain nofun)
  | some method =>
      exact .ite (fun _ => .fail_bind (K.plain nofun)) fun _ =>
        run_query_speaks K hruns method arguments

theorem start_speaks (program : Host.Program) : K.scene.Speaks fun o => o.start program := by
  refine (note_request_speaks K _).bind fun _ => (bootstrap_speaks K).bind fun _ =>
    (loadClass_speaks K _).bind fun c => ?_
  dsimp only
  cases (c.declaredMethod? "main" "([Ljava/lang/String;)V").filter (·.isStatic) with
  | none => exact .fail (K.plain nofun)
  | some method =>
      exact (newArray_speaks K _ _).bind fun a => (storeTexts_speaks K a _ _).bind fun _ =>
        (run_query_speaks K hruns method _).bind fun _ => note_request_speaks K _

/-- Every request of a host keeps to every conduct. -/
theorem request_speaks (r : Request) : K.scene.Speaks fun o => r.via o := by
  cases r with
  | load name => exact (load_speaks K name).map _
  | bootstrap => exact bootstrap_speaks K
  | start program => exact start_speaks K hruns program
  | invoke method arguments => exact (run_query_speaks K hruns method arguments).map _
  | invokeStatic owner name descriptor arguments =>
      exact (invokeStatic_request_speaks K hruns owner name descriptor arguments).map _
  | newObject name => exact (newObject_request_speaks K name).map _
  | newArray name length => exact (newArray_speaks K name length).map _
  | newMultiArray name lengths => exact (newMultiArray_speaks K name lengths).map _
  | newString text => exact (newString_speaks K text).map _
  | typeObject name => exact (typeObject_speaks K name).map _
  | primitiveClassObject name => exact (primitiveClassObject_speaks K name).map _
  | classObject name => exact (classObject_speaks K name).map _

end

end Conduct
end Bytecode
