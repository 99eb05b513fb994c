import Bytecode.Proofs.Dialogue.Machine

/-!
# Parts of a load in dialogue

Array classes come into use, supertypes are asked for, and static fields get their constants,
whatever the conduct is.
-/

namespace Bytecode

open Machine Scene

namespace Conduct

variable {K : Conduct} {m : Machine}

/-!
# Array classes
-/

/-- The class of an array type is the one of its name, and is made with an empty place for its
object if it is not there. -/
theorem arrayClass_ends (hinv : K.inv m) (name : String) :
    K.Ends (fun a m' => a.name = name ∧ (m'.place? (.ofArray name)).isSome ∧ (K.typed → a.Honest))
      m (arrayClass name m) := by
  rcases arrayClass_outcome name m with ⟨e, harray, hok⟩ | ⟨-, hfault⟩ | ⟨f, helement, hfault⟩ |
    ⟨root, element, harray, -, helement, hok⟩
  · rw [hok]
    refine ⟨hinv, K.rel_refl m, by simpa using List.find?_some harray, ?_, fun ht => ?_⟩
    · rw [place?, harray]
      rfl
    · exact (K.sound hinv ht).arrays e (List.mem_of_find?_eq_some harray)
  · rw [hfault]
    exact ⟨hinv, K.rel_refl m, K.plain (Fault.plain_illegal _)⟩
  · rw [hfault]
    exact ⟨hinv, K.rel_refl m, K.plain (Descriptor.elementOf_fails name f helement).fault⟩
  · have hwork : Works m { m with arrays := m.arrays ++ [⟨⟨name, element, root⟩, none⟩] } :=
      ⟨rfl, rfl, rfl, rfl⟩
    have hplaces := place?_use (a := ⟨name, element, root⟩) harray
    have hvacant : m.place? (.ofArray name) = none := by
      simp only [place?, harray, Option.map_none]
    obtain ⟨hinv', hrel⟩ := K.work hinv hwork (.open hvacant hplaces rfl rfl) fun ht =>
      ⟨(K.sound hinv ht).addArray ⟨name, element, root⟩ helement, Grows.of_eq rfl⟩
    rw [hok]
    refine ⟨hinv', hrel, rfl, ?_, fun _ => helement⟩
    rw [hplaces, if_pos rfl]
    rfl

/-!
# Supertypes
-/

section

variable (K)

/-- A superclass is a class that was loaded for the name in the file, and only the root class has
none. -/
theorem loadParent_talks (file : ClassFile) :
    K.scene.Talks (fun _ => True)
      (fun parent m => (parent = none ↔ file.name = rootName) ∧
        (∀ p, parent = some p → p.isInterface = false ∧
          ∃ n, file.superName = some n ∧ K.loaded n (.ofClass p) m) ∧
          (parent = none → file.superName = none))
      fun o => loadParent o.load file := by
  unfold loadParent
  by_cases hroot : file.name = rootName
  · cases file.superName with
    | none =>
        simp only [hroot, ne_eq, not_true, if_false]
        exact .pure fun _ _ _ => ⟨by simp, nofun, fun _ => trivial⟩
    | some superName =>
        simp only [hroot, if_true]
        exact .fail_bind (K.plain nofun)
  · cases file.superName with
    | none =>
        simp only [ne_eq, hroot, not_false_eq_true, if_true]
        exact .fail_bind (K.plain nofun)
    | some superName =>
        simp only [hroot, if_false]
        refine (loadClass_talks K superName).bind fun parent => ?_
        by_cases hinterface : parent.isInterface = true
        · simp only [hinterface, if_true]
          exact .fail_bind (K.plain nofun)
        · simp only [hinterface]
          refine .pure fun m _ hloaded => ⟨by simp, ?_, nofun⟩
          rintro _ ⟨⟩
          exact ⟨by simpa using hinterface, superName, rfl, hloaded⟩

theorem loadInterface_talks (owner interfaceName : String) :
    K.scene.Talks (fun _ => True)
      (fun i m => i.isInterface = true ∧ K.loaded interfaceName (.ofClass i) m)
      fun o => loadInterface o.load owner interfaceName := by
  refine (loadClass_talks K interfaceName).bind fun i => ?_
  by_cases hinterface : i.isInterface = true
  · simp only [hinterface, Bool.not_true, Bool.false_eq_true, if_false]
    exact .pure fun m _ hloaded => ⟨hinterface, hloaded⟩
  · simp only [hinterface, Bool.not_false, if_true]
    exact .fail_bind (K.plain nofun)

/-!
# Constants
-/

theorem constantFor_talks (pool : Pool) (f : Field) (constant : Constant) :
    K.scene.Talks (fun _ => True) (fun value _ => f.type.kind? = some value.kind)
      fun o => constantFor o.load pool f constant := by
  unfold constantFor
  split
  next hkind => exact .pure fun _ _ _ => hkind
  next hkind => exact .pure fun _ _ _ => hkind
  next hkind => exact .pure fun _ _ _ => hkind
  next hkind => exact .pure fun _ _ _ => hkind
  next hkind =>
      refine Talks.bind (liftMalformed_speaks K (pool.utf8_fails _)) fun text =>
        Talks.bind (newString_speaks K text) fun address => ?_
      exact .pure fun _ _ _ => hkind
  next => exact .fail (K.plain nofun)

variable {P : Machine → Prop} (hP : ∀ {m m'}, K.rel m m' → P m → P m')

include hP

theorem assignConstant_talks (pool : Pool) {position : Nat} {f : Field}
    (hsound : ∀ {m value}, K.inv m → P m → f.type.kind? = some value.kind → K.typed →
      (m.setStaticAt f.owner position value).Sound) :
    K.scene.Talks P (fun _ => P) fun o => assignConstant o.load pool position f := by
  unfold assignConstant
  cases f.constantValue with
  | none => exact .pure fun _ _ hm => hm
  | some index =>
      by_cases hfinal : f.access.isFinal = true
      · simp only [hfinal, if_true]
        refine Talks.bind (.liftMalformed (pool.get_fails index) K.plain) fun constant => ?_
        have hvalue := (constantFor_talks K pool f constant).keep (E := P) hP
        refine Talks.bind (hvalue.mono (fun _ _ hm => ⟨trivial, hm.2⟩) fun _ _ _ hq => hq)
          fun value => .of_alike (.modify ?_)
        rintro m hinv ⟨hkind, hm⟩
        have hworks : Works m (m.setStaticAt f.owner position value) :=
          modifyEntry_works m f.owner fun _ => ⟨rfl, rfl⟩
        have hspares : m.Spares (m.setStaticAt f.owner position value) :=
          .modifyEntry m f.owner fun _ => ⟨rfl, rfl⟩
        obtain ⟨hinv', hrel⟩ := K.work hinv hworks hspares.upholds fun ht =>
          ⟨hsound hinv hm hkind ht, Grows.of_eq rfl⟩
        exact ⟨hinv', hrel, hP hrel hm⟩
      · simp only [hfinal]
        exact .pure fun _ _ hm => hm

theorem assignConstants_talks (pool : Pool) {fields : List Field} {position : Nat}
    (hsound : ∀ i f, fields[i]? = some f → ∀ m value, K.inv m → P m →
      f.type.kind? = some value.kind → K.typed →
        (m.setStaticAt f.owner (position + i) value).Sound) :
    K.scene.Talks P (fun _ => P) fun o => assignConstants o.load pool position fields := by
  induction fields generalizing position with
  | nil => exact .pure fun _ _ hm => hm
  | cons f rest ih =>
      refine (assignConstant_talks K hP pool (hsound 0 f rfl _ _)).bind fun _ => ih ?_
      intro i g hg
      rw [Nat.add_right_comm, Nat.add_assoc]
      exact hsound (i + 1) g hg

end

end Conduct
end Bytecode
