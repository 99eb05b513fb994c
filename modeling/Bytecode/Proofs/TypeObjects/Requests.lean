import Bytecode.Proofs.Dialogue.Thread

/-!
# Requests that uphold the objects of types

Requests only change the machine in ways that uphold the objects that stand for types, whatever the
machine was like before.  The loader can be relied on to name a type by the name it was asked for,
and to have a place for its object.
-/

namespace Bytecode

open Machine Scene

def Loaded.place : Loaded → TypePlace
  | ofClass c => .ofClass c.name
  | ofArray a => .ofArray a.name

def TypePlace.ofLoaded (name : String) : TypePlace :=
  if Descriptor.isArray name then .ofArray name else .ofClass name

/-- The type has the name, and the machine has a place for its object. -/
def Loaded.Placed (name : String) (l : Loaded) (m : Machine) : Prop :=
  l.place = TypePlace.ofLoaded name ∧ (m.place? l.place).isSome

/-- The objects of types are upheld, and nothing is asked of the machine. -/
def discretion : Conduct where
  inv _ := True
  rel := Upholds
  err _ := True
  rel_refl := .refl
  rel_trans := .trans
  typed := False
  loaded := Loaded.Placed
  runs := True
  prompt := False
  knows _ _ := True
  sound _ := False.elim
  names _ := False.elim
  honest _ := False.elim
  work _ _ hupholds _ := ⟨trivial, hupholds⟩
  remember _ _ _ _ _ := ⟨trivial, .of_eq rfl rfl rfl rfl⟩
  knows_registered _ := trivial
  knows_later _ _ := trivial
  plain _ := trivial

def Native.Discreet (native : Native) : Prop :=
  discretion.workspace.Speaks fun o => native o.load

def NativeTable.Discreet (t : NativeTable) : Prop :=
  ∀ row ∈ t, Native.Discreet row.2

theorem Native.library_discreet : NativeTable.Discreet library :=
  library_obeys discretion

namespace TypeObjects

theorem occupant_placed {name : String} (l : Loaded) :
    discretion.scene.Talks (Loaded.Placed name l)
      (fun address m => m.place? (TypePlace.ofLoaded name) = some (some address))
      fun o => occupant o.load l.place := by
  have hgenuine : l.place.Genuine := by cases l <;> trivial
  have hlater {m m' : Machine} (h : m.Upholds m') (hl : Loaded.Placed name l m) :
      Loaded.Placed name l m' := ⟨hl.1, h.places hl.2⟩
  have hkept := (Conduct.occupant_talks discretion hgenuine).keep hlater
  refine hkept.mono (fun _ _ hl => ⟨trivial, hl⟩) fun address m _ hq => ?_
  rw [← hq.2.1]
  exact hq.1 hq.2.2

theorem load_talks (name : String) :
    discretion.scene.Talks (fun _ => True) (Loaded.Placed name) fun o => o.load name :=
  Conduct.load_talks discretion name

/-- An answer for a type name stands in the place of that name. -/
theorem typeObject_talks (name : String) :
    discretion.scene.Talks (fun _ => True)
      (fun address m => m.place? (TypePlace.ofName name) = some (some address))
      fun o => typeObject o.load name := by
  by_cases hname : name ∈ primitiveTypes
  · simp only [typeObject_primitive _ hname, primitiveClassObject_eq _ hname]
    apply (Conduct.occupant_talks discretion (p := .ofPrimitive name) hname).mono
      fun _ _ _ => trivial
    intro address m _ hstands
    rw [TypePlace.ofName_primitive hname]
    apply hstands
    rw [place?_ofPrimitive.mpr ⟨hname, rfl⟩]
    rfl
  · have hplace : TypePlace.ofName name = TypePlace.ofLoaded name := by
      simp [TypePlace.ofName, TypePlace.ofLoaded, hname]
    have hnot : primitiveTypes.contains name = false := by simp [hname]
    simp only [typeObject, hnot, Bool.false_eq_true, if_false]
    rw [hplace]
    refine (load_talks name).bind fun l => ?_
    cases l with
    | ofClass c =>
        simp only [classObject_eq]
        exact occupant_placed (.ofClass c)
    | ofArray a =>
        simp only [arrayClassObject_eq]
        exact occupant_placed (.ofArray a)

end TypeObjects
end Bytecode
