import Bytecode.Machine.Session
import Bytecode.Proofs.Loading.Order

/-!
# Places for the objects that stand for types

The machine has a place for the object of every primitive type, of every array class that is in use
and of every registered class.  All of them are filled in the same way: the object is made while
the place is empty, and is only put there if the place is still empty then.
-/

namespace Bytecode

def Object.reflects? : Object → Option String
  | ofInstance i => i.reflects
  | ofArray _ => none

inductive TypePlace where
  | ofPrimitive (name : String)
  | ofArray (name : String)
  | ofClass (name : String)
deriving DecidableEq

namespace TypePlace

def name : TypePlace → String
  | ofPrimitive name => name
  | ofArray name => name
  | ofClass name => name

def Genuine : TypePlace → Prop
  | ofPrimitive name => name ∈ Machine.primitiveTypes
  | ofArray _ => True
  | ofClass _ => True

/-- The place of a type name: a primitive type hides a class of its name. -/
def ofName (name : String) : TypePlace :=
  if Machine.primitiveTypes.contains name then .ofPrimitive name
  else if Descriptor.isArray name then .ofArray name
  else .ofClass name

theorem name_ofName (name : String) : (ofName name).name = name := by
  unfold ofName
  split
  · rfl
  · split <;> rfl

theorem ofName_primitive {name : String} (h : name ∈ Machine.primitiveTypes) :
    ofName name = .ofPrimitive name := by
  simp only [ofName, List.contains_iff_mem.mpr h, if_true]

end TypePlace

namespace Machine

variable {m m' : Machine} {p : TypePlace} {address : Nat} {name : String}

def reflected? (m : Machine) (address : Nat) : Option String :=
  m.objects[address]?.bind Object.reflects?

def place? (m : Machine) : TypePlace → Option (Option Nat)
  | .ofPrimitive name =>
      if primitiveTypes.contains name then some (m.primitives.lookup name) else none
  | .ofArray name => (m.array? name).map ArrayEntry.classObject
  | .ofClass name => (m.registration? name).map Entry.classObject

theorem place?_ofPrimitive {content : Option Nat} :
    m.place? (.ofPrimitive name) = some content ↔
      name ∈ primitiveTypes ∧ m.primitives.lookup name = content := by
  simp only [place?, List.contains_iff_mem, Option.ite_none_right_eq_some, Option.some.injEq]

def fill (m : Machine) (address : Nat) : TypePlace → Machine
  | .ofPrimitive name => { m with primitives := m.primitives ++ [(name, address)] }
  | .ofArray name =>
      { m with arrays := m.arrays.map fun e =>
          if e.cls.name == name then { e with classObject := some address } else e }
  | .ofClass name => m.modifyEntry name fun e => { e with classObject := some address }

/-- Every object in a place stands for the type of that place. -/
structure Faithful (m : Machine) : Prop where
  reflected : ∀ {p address}, m.place? p = some (some address) → m.reflected? address = some p.name
  primitive : ∀ row ∈ m.primitives, row.1 ∈ primitiveTypes
  once : (m.primitives.map Prod.fst).Nodup

theorem Faithful.empty : Faithful Machine.empty where
  reflected := by
    intro p address h
    cases p with
    | ofPrimitive name =>
        simp only [place?, Machine.empty, List.lookup_nil] at h
        split at h <;> cases h
    | ofArray name => cases h
    | ofClass name => cases h
  primitive := nofun
  once := List.nodup_nil

/-- The objects of primitive types are those in the places of the primitive types. -/
theorem Faithful.isPrimitive_iff (h : m.Faithful) :
    m.isPrimitiveClassObject address = true ↔
      ∃ name ∈ primitiveTypes, m.place? (.ofPrimitive name) = some (some address) := by
  simp only [isPrimitiveClassObject, List.any_eq_true, beq_iff_eq]
  constructor
  · rintro ⟨⟨name, address⟩, hrow, rfl⟩
    have hname := h.primitive _ hrow
    obtain ⟨before, after, hrows⟩ := List.append_of_mem hrow
    refine ⟨name, hname, ?_⟩
    rw [place?_ofPrimitive, List.lookup_eq_some_iff]
    refine ⟨hname, before, after, hrows, fun row hbefore => ?_⟩
    have honce := h.once
    rw [hrows, List.map_append, List.nodup_append] at honce
    exact bne_iff_ne.mpr
      (honce.2.2 row.1 (List.mem_map_of_mem hbefore) name List.mem_cons_self).symm
  · rintro ⟨name, hname, hplace⟩
    exact ⟨(name, address), mem_of_lookup (place?_ofPrimitive.mp hplace).2, rfl⟩

/-!
# What requests uphold
-/

/-- Places stay, and so does what is in them; objects stand for the types that they stood for; and
objects in places are faithful if they were. -/
structure Upholds (m m' : Machine) : Prop where
  places : ∀ {p}, (m.place? p).isSome → (m'.place? p).isSome
  stays : ∀ {p address}, m.place? p = some (some address) → m'.place? p = some (some address)
  reflected : ∀ {address name},
    m.reflected? address = some name → m'.reflected? address = some name
  faithful : m.Faithful → m'.Faithful

theorem Upholds.refl (m : Machine) : Upholds m m :=
  ⟨id, id, id, id⟩

theorem Upholds.trans {a b c : Machine} (h : Upholds a b) (h' : Upholds b c) : Upholds a c :=
  ⟨fun hp => h'.places (h.places hp), fun hp => h'.stays (h.stays hp),
    fun ha => h'.reflected (h.reflected ha), fun hf => h'.faithful (h.faithful hf)⟩

/-- Ordinary work: places are left alone, and objects stand for the types that they stood for. -/
structure Spares (m m' : Machine) : Prop where
  places : ∀ p, m'.place? p = m.place? p
  primitives : m'.primitives = m.primitives
  reflected : ∀ {address name},
    m.reflected? address = some name → m'.reflected? address = some name

theorem Spares.upholds (h : Spares m m') : Upholds m m' where
  places hp := by rwa [h.places]
  stays hp := by rwa [h.places]
  reflected := h.reflected
  faithful hf := by
    refine ⟨fun hp => ?_, ?_, ?_⟩
    · rw [h.places] at hp
      exact h.reflected (hf.reflected hp)
    · rw [h.primitives]
      exact hf.primitive
    · rw [h.primitives]
      exact hf.once

theorem Spares.of_eq (hclasses : m'.classes = m.classes) (harrays : m'.arrays = m.arrays)
    (hprimitives : m'.primitives = m.primitives) (hobjects : m'.objects = m.objects) :
    Spares m m' where
  places p := by
    cases p <;> simp only [place?, array?, registration?, hclasses, harrays, hprimitives]
  primitives := hprimitives
  reflected ha := by
    unfold reflected? at *
    rwa [hobjects]

theorem Upholds.of_eq (hclasses : m'.classes = m.classes) (harrays : m'.arrays = m.arrays)
    (hprimitives : m'.primitives = m.primitives) (hobjects : m'.objects = m.objects) :
    Upholds m m' :=
  (Spares.of_eq hclasses harrays hprimitives hobjects).upholds

theorem Spares.refl (m : Machine) : Spares m m :=
  .of_eq rfl rfl rfl rfl

theorem find?_map_at {ε : Type} (rows : List ε) (key : ε → String) {f : ε → ε}
    (hf : ∀ e, key (f e) = key e) (name n : String) :
    (rows.map fun e => if key e == name then f e else e).find? (key · == n) =
      (rows.find? (key · == n)).map fun e => if n = name then f e else e := by
  have hkey (e : ε) : key (if key e == name then f e else e) = key e := by
    split
    · exact hf e
    · rfl
  rw [List.find?_map]
  simp only [Function.comp_def, hkey]
  apply Option.map_congr
  intro e he
  have hn : key e = n := by simpa using List.find?_some he
  simp only [hn, beq_iff_eq]

theorem registration?_modifyEntry (m : Machine) (name : String) {f : Entry → Entry}
    (hf : ∀ e, (f e).cls = e.cls) (n : String) :
    (m.modifyEntry name f).registration? n =
      (m.registration? n).map fun e => if n = name then f e else e :=
  find?_map_at m.classes (·.cls.name) (fun e => by rw [hf]) name n

theorem Spares.modifyEntry (m : Machine) (name : String) {f : Entry → Entry}
    (hf : ∀ e, (f e).cls = e.cls ∧ (f e).classObject = e.classObject) :
    Spares m (m.modifyEntry name f) where
  places p := by
    cases p with
    | ofPrimitive n => rfl
    | ofArray n => rfl
    | ofClass n =>
        simp only [place?, registration?_modifyEntry m name (fun e => (hf e).1), Option.map_map]
        congr 1
        funext e
        simp only [Function.comp_apply]
        split
        · exact (hf e).2
        · rfl
  primitives := rfl
  reflected := id

theorem Spares.setStatic (m : Machine) (f : Field) (value : Value) :
    Spares m (m.setStatic f value) := by
  unfold Machine.setStatic
  split
  · exact .modifyEntry m _ fun _ => ⟨rfl, rfl⟩
  · exact .refl m

/-!
# Objects
-/

theorem reflected?_push (m : Machine) (o : Object) :
    reflected? { m with objects := m.objects.push o } m.objects.size = o.reflects? := by
  simp only [reflected?, Array.getElem?_push_size, Option.bind_some]

theorem Spares.push (m : Machine) (o : Object) :
    Spares m { m with objects := m.objects.push o } where
  places p := by cases p <;> rfl
  primitives := rfl
  reflected {address name} ha := by
    obtain ⟨old, hold, hreflects⟩ := Option.bind_eq_some_iff.mp ha
    have hlt : address < m.objects.size := (Array.getElem?_eq_some_iff.mp hold).1
    simp only [reflected?, Array.getElem?_push, Nat.ne_of_lt hlt, if_false, hold,
      Option.bind_some, hreflects]

theorem Spares.put {old o : Object} (hold : m.objects[address]? = some old)
    (hreflects : o.reflects? = old.reflects?) :
    Spares m { m with objects := m.objects.setIfInBounds address o } where
  places p := by cases p <;> rfl
  primitives := rfl
  reflected {a name} ha := by
    by_cases heq : address = a
    · subst heq
      have hlt : address < m.objects.size := (Array.getElem?_eq_some_iff.mp hold).1
      unfold reflected? at ha ⊢
      rw [hold, Option.bind_some] at ha
      rw [Array.getElem?_setIfInBounds_self_of_lt hlt, Option.bind_some, hreflects, ha]
    · unfold reflected? at ha ⊢
      rwa [Array.getElem?_setIfInBounds_ne heq]

/-!
# Filling places
-/

theorem lookup_of_vacant (hname : name ∈ primitiveTypes)
    (hvacant : (m.place? (.ofPrimitive name)).join = none) : m.primitives.lookup name = none := by
  rwa [place?_ofPrimitive.mpr ⟨hname, rfl⟩] at hvacant

theorem map_filled {ε : Type} (rowOf : String → Option ε) {f : ε → ε} {content : ε → Option Nat}
    (hf : ∀ e, content (f e) = some address) (name n : String) :
    ((rowOf n).map fun e => if n = name then f e else e).map content =
      if n = name then ((rowOf name).map content).map fun _ => some address
      else (rowOf n).map content := by
  by_cases heq : n = name
  · subst heq
    simp only [if_true, Option.map_map, Function.comp_def, hf]
  · simp only [heq, if_false, Option.map_id']

theorem place?_fill (hp : p.Genuine) (hvacant : (m.place? p).join = none) (q : TypePlace) :
    (m.fill address p).place? q =
      if q = p then (m.place? p).map fun _ => some address else m.place? q := by
  -- places of different sorts do not meet
  cases p with
  | ofPrimitive name =>
      cases q with
      | ofPrimitive n =>
          have hnone := lookup_of_vacant hp hvacant
          have hname : name ∈ primitiveTypes := hp
          simp only [place?, fill, List.lookup_append, List.lookup_cons, List.lookup_nil,
            TypePlace.ofPrimitive.injEq]
          by_cases heq : n = name
          · subst heq
            simp [hname, hnone]
          · simp [heq, beq_eq_false_iff_ne.mpr heq]
      | ofArray n => rfl
      | ofClass n => rfl
  | ofArray name =>
      cases q with
      | ofPrimitive n => rfl
      | ofArray n =>
          have hfound := find?_map_at m.arrays (·.cls.name)
            (f := fun e => { e with classObject := some address }) (fun _ => rfl) name n
          simp only [place?, array?, fill, hfound, TypePlace.ofArray.injEq]
          exact map_filled m.array? (fun _ => rfl) name n
      | ofClass n => rfl
  | ofClass name =>
      cases q with
      | ofPrimitive n => rfl
      | ofArray n => rfl
      | ofClass n =>
          have hfound := registration?_modifyEntry m name
            (f := fun e => { e with classObject := some address }) (fun _ => rfl) n
          simp only [place?, fill, hfound, TypePlace.ofClass.injEq]
          exact map_filled m.registration? (fun _ => rfl) name n

theorem reflected?_fill (m : Machine) (address : Nat) (p : TypePlace) :
    (m.fill address p).reflected? = m.reflected? := by
  cases p <;> rfl

theorem Faithful.fill (h : m.Faithful) (hp : p.Genuine) (hvacant : (m.place? p).join = none)
    (hreflected : m.reflected? address = some p.name) : (m.fill address p).Faithful := by
  refine ⟨fun {q a} hq => ?_, ?_, ?_⟩
  · rw [reflected?_fill]
    rw [place?_fill hp hvacant] at hq
    split at hq
    next heq =>
        obtain ⟨_, -, hsome⟩ := Option.map_eq_some_iff.mp hq
        cases hsome
        rwa [heq]
    next => exact h.reflected hq
  · cases p with
    | ofPrimitive name =>
        exact List.forall_mem_append.mpr ⟨h.primitive, List.forall_mem_singleton.mpr hp⟩
    | ofArray name => exact h.primitive
    | ofClass name => exact h.primitive
  · cases p with
    | ofPrimitive name =>
        have hnew := List.lookup_eq_none_iff.mp (lookup_of_vacant hp hvacant)
        simp only [Machine.fill, List.map_append, List.map_cons, List.map_nil]
        refine List.nodup_append.mpr ⟨h.once, List.nodup_singleton _, ?_⟩
        rintro n hn _ hsingle rfl
        obtain ⟨row, hrow, hkey⟩ := List.mem_map.mp hn
        have hother := hnew row hrow
        rw [hkey, ← List.mem_singleton.mp hsingle] at hother
        exact absurd rfl (bne_iff_ne.mp hother)
    | ofArray name => exact h.once
    | ofClass name => exact h.once

/-- A vacant place may be filled with an object that stands for its type. -/
theorem fill_upholds (hp : p.Genuine) (hvacant : (m.place? p).join = none)
    (hreflected : m.reflected? address = some p.name) : Upholds m (m.fill address p) where
  places hq := by
    rw [place?_fill hp hvacant]
    split
    next heq =>
        rw [heq] at hq
        rwa [Option.isSome_map]
    next => exact hq
  stays hq := by
    rw [place?_fill hp hvacant]
    split
    next heq =>
        rw [← heq, hq] at hvacant
        cases hvacant
    next => exact hq
  reflected ha := by rwa [reflected?_fill]
  faithful hf := hf.fill hp hvacant hreflected

theorem fill_works (m : Machine) (address : Nat) (p : TypePlace) : Works m (m.fill address p) := by
  cases p with
  | ofPrimitive name => exact ⟨rfl, rfl, rfl, rfl⟩
  | ofArray name => exact ⟨rfl, rfl, rfl, rfl⟩
  | ofClass name => exact modifyEntry_works m name fun _ => ⟨rfl, rfl⟩

theorem fill_objects (m : Machine) (address : Nat) (p : TypePlace) :
    (m.fill address p).objects = m.objects := by
  cases p <;> rfl

/-!
# New places
-/

theorem Upholds.open (hnew : m.place? p = none)
    (hplaces : ∀ q, m'.place? q = if q = p then some none else m.place? q)
    (hprimitives : m'.primitives = m.primitives) (hobjects : m'.objects = m.objects) :
    Upholds m m' := by
  have hsame (a : Nat) : m'.reflected? a = m.reflected? a := by simp only [reflected?, hobjects]
  have hold {q : TypePlace} (hq : (m.place? q).isSome) : m'.place? q = m.place? q := by
    rw [hplaces, if_neg]
    rintro rfl
    rw [hnew] at hq
    cases hq
  refine ⟨fun {q} hq => ?_, fun {q a} hq => ?_, fun ha => ?_,
    fun hf => ⟨fun {q a} hq => ?_, ?_, ?_⟩⟩
  · rwa [hold hq]
  · rwa [hold (by rw [hq]; rfl)]
  · rwa [hsame]
  · rw [hplaces] at hq
    rw [hsame]
    split at hq
    · cases hq
    · exact hf.reflected hq
  · rw [hprimitives]
    exact hf.primitive
  · rw [hprimitives]
    exact hf.once

theorem find?_append_new {ε : Type} (rows : List ε) (key : ε → String) (row : ε)
    (hnew : rows.find? (key · == key row) = none) (n : String) :
    (rows ++ [row]).find? (key · == n) =
      if n = key row then some row else rows.find? (key · == n) := by
  rw [List.find?_append]
  by_cases heq : n = key row
  · simp [heq, hnew]
  · have hother : [row].find? (key · == n) = none := by
      simp [Ne.symm heq]
    rw [hother, Option.or_none, if_neg heq]

theorem place?_register {c : Class} (hnew : m.registration? c.name = none) (q : TypePlace) :
    place? { m with classes := m.classes ++ [Entry.ofClass c] } q =
      if q = .ofClass c.name then some none else m.place? q := by
  cases q with
  | ofPrimitive n => rfl
  | ofArray n => rfl
  | ofClass n =>
      have hfound := find?_append_new m.classes (·.cls.name) (Entry.ofClass c) hnew n
      simp only [place?, registration?, hfound, TypePlace.ofClass.injEq]
      by_cases heq : n = c.name
      · simp only [if_pos heq, if_pos (show n = (Entry.ofClass c).cls.name from heq)]
        rfl
      · simp only [if_neg heq, if_neg (show ¬ n = (Entry.ofClass c).cls.name from heq)]

theorem place?_use {a : ArrayClass} (hnew : m.array? a.name = none) (q : TypePlace) :
    place? { m with arrays := m.arrays ++ [⟨a, none⟩] } q =
      if q = .ofArray a.name then some none else m.place? q := by
  cases q with
  | ofPrimitive n => rfl
  | ofArray n =>
      have hfound := find?_append_new m.arrays (·.cls.name) ⟨a, none⟩ hnew n
      simp only [place?, array?, hfound, TypePlace.ofArray.injEq]
      split <;> rfl
  | ofClass n => rfl

/-!
# Requests for objects
-/

variable {α : Type}

/-- The object in a place.  While it is made, another one may come into being; the first stays. -/
def occupant (load : Loader) (p : TypePlace) : MachineM Nat := do
  match ((← get).place? p).join with
  | some address => return address
  | none =>
      let created ← newClassObject load p.name
      match ((← get).place? p).join with
      | some address => return address
      | none =>
          modify fun m => m.fill created p
          return created

theorem join_map_eq_bind {ε : Type} (o : Option ε) (f : ε → Option α) :
    (o.map f).join = o >>= f := by
  cases o <;> rfl

theorem classObject_eq (load : Loader) (name : String) :
    classObject load name = occupant load (.ofClass name) := by
  simp only [classObject, occupant, place?, join_map_eq_bind]
  rfl

theorem arrayClassObject_eq (load : Loader) (name : String) :
    arrayClassObject load name = occupant load (.ofArray name) := by
  simp only [arrayClassObject, occupant, place?, join_map_eq_bind]
  rfl

theorem primitiveClassObject_eq (load : Loader) {name : String} (h : name ∈ primitiveTypes) :
    primitiveClassObject load name = occupant load (.ofPrimitive name) := by
  simp only [primitiveClassObject, occupant, place?, List.contains_iff_mem.mpr h, if_true,
    Bool.not_true, Bool.false_eq_true, if_false]
  rfl

theorem typeObject_primitive (load : Loader) {name : String} (h : name ∈ primitiveTypes) :
    typeObject load name = primitiveClassObject load name := by
  simp only [typeObject, List.contains_iff_mem.mpr h, if_true]

end Machine
end Bytecode
