import Bytecode.Proofs.Heap.Fields
import Bytecode.Proofs.Heap.NestedArrays
import Bytecode.Proofs.TypeObjects.Uniqueness

/-!
# Types found by their names

Once there is an object for a type, it is found again without anything being loaded.  The name that
such an object tells is made into a string, and from that string the same object is found.
-/

namespace Bytecode

open Machine Scene TypeObjects

section

variable {host : Host} {events : List Event} {m m' : Machine} {name : String} {x : Nat}

/-!
# Histories in which the host does ordinary work
-/

/-- The host changes objects, static fields or output, and leaves the objects of types alone. -/
def Machine.LeavesTypes (m m' : Machine) : Prop :=
  Works m m' ∧ Spares m m'

section

variable {writes writes' : Machine → Machine → Prop}
  (hwrites : ∀ {m m'}, writes m m' → writes' m m')

include hwrites

theorem Rests.mono (h : Rests host writes events m) : Rests host writes' events m := by
  induction h with
  | empty => exact .empty
  | write _ hwrite ih => exact .write ih (hwrites hwrite)
  | request _ hinner hend ih => exact .request ih hinner hend

theorem History.mono (h : History host writes events) : History host writes' events := by
  obtain ⟨fuel, r, m, stage, before, inner, hrests, hinner, rfl⟩ := h
  exact ⟨fuel, r, m, stage, before, inner, hrests.mono hwrites, hinner, rfl⟩

end

/-!
# What requests keep
-/

section

variable {α : Type} {fuel : Nat} {y : Oracle → MachineM α} {a : α} {path : ClassPath}

theorem Scene.Speaks.kept (h : (conduct host.path False none).scene.Speaks y)
    (hnatives : host.natives.Polite) (hinv : (conduct host.path False none).inv m)
    (hok : y (host.oracle fuel) m = .ok a m') :
    (conduct host.path False none).inv m' ∧ Extends m m' := by
  have hends := ((h m hinv trivial).outcome (Conduct.manner_chains _)
    (conduct_honors hnatives fuel)).1
  change (conduct host.path False none).Ends _ m (y (host.oracle fuel) m) at hends
  rw [hok] at hends
  exact ⟨hends.1, hends.2.1.1⟩

theorem Scene.Speaks.upheld (h : discretion.scene.Speaks y) (hnatives : host.natives.Discreet)
    (hok : y (host.oracle fuel) m = .ok a m') : m.Upholds m' := by
  have hends := ((h m trivial trivial).outcome (Conduct.manner_chains _) (honors hnatives fuel)).1
  change discretion.Ends _ m (y (host.oracle fuel) m) at hends
  rw [hok] at hends
  exact hends.2.1

end

/-!
# Objects that are there
-/

theorem typeObject_loaded (load : Loader) (hname : name ∉ primitiveTypes) :
    typeObject load name = load name >>= fun l => occupant load l.place := by
  have hnot : primitiveTypes.contains name = false := by simp [hname]
  simp only [typeObject, hnot, Bool.false_eq_true, if_false]
  congr 1
  funext l
  cases l with
  | ofClass c => exact classObject_eq load c.name
  | ofArray a => exact arrayClassObject_eq load a.name

/-- The object of the type can be had without anything being loaded. -/
structure Machine.HasTypeObject (m : Machine) (name : String) (x : Nat) : Prop where
  place : m.place? (TypePlace.ofName name) = some (some x)
  ready : name ∉ primitiveTypes → Descriptor.isArray name = false →
    ∃ c s, m.standing? name = some (c, s) ∧ s ≠ .erroneous

namespace Machine.HasTypeObject

theorem next (h : m.HasTypeObject name x) (hupholds : m.Upholds m') (hextends : Extends m m') :
    m'.HasTypeObject name x := by
  refine ⟨hupholds.stays h.place, fun hname harray => ?_⟩
  obtain ⟨c, s, hstanding, hs⟩ := h.ready hname harray
  exact ⟨c, s, hextends.standing hstanding, hs⟩

theorem load (h : m.HasTypeObject name x) (host : Host) (fuel : Nat)
    (hname : name ∉ primitiveTypes) :
    ∃ l, host.load (fuel + 1) name m = .ok l m ∧ l.place = TypePlace.ofName name := by
  have hplace := h.place
  have hnot : primitiveTypes.contains name = false := by simp [hname]
  unfold TypePlace.ofName at hplace ⊢
  simp only [hnot, Bool.false_eq_true, if_false] at hplace ⊢
  cases harray : Descriptor.isArray name with
  | true =>
      rw [if_pos harray] at hplace
      obtain ⟨entry, hentry, -⟩ := Option.map_eq_some_iff.mp hplace
      have hfound := List.find?_some hentry
      refine ⟨.ofArray entry.cls, ?_, congrArg TypePlace.ofArray (eq_of_beq hfound)⟩
      rw [Host.load_succ, Host.loadVia, loadWith_array harray]
      exact bind_of_ok (arrayClass_known hentry)
  | false =>
      obtain ⟨c, s, hstanding, hs⟩ := h.ready hname harray
      refine ⟨.ofClass c, ?_, congrArg TypePlace.ofClass (standing?_name hstanding)⟩
      rw [Host.load_registered host fuel harray hstanding, if_neg hs]

theorem typeObject (h : m.HasTypeObject name x) (host : Host) (fuel : Nat) :
    Machine.typeObject (host.load (fuel + 1)) name m = .ok x m := by
  have hfound (load : Loader) : occupant load (TypePlace.ofName name) m = .ok x m :=
    occupant_of_place? load h.place
  by_cases hname : name ∈ primitiveTypes
  · rw [typeObject_primitive _ hname, primitiveClassObject_eq _ hname,
      ← TypePlace.ofName_primitive hname]
    exact hfound _
  · obtain ⟨l, hload, hplace⟩ := h.load host fuel hname
    rw [typeObject_loaded _ hname, bind_of_ok hload, hplace]
    exact hfound _

theorem of_typeObject (hpolite : host.natives.Polite) (hdiscreet : host.natives.Discreet)
    (hinv : (conduct host.path False none).inv m) {fuel : Nat}
    (h : Machine.typeObject (host.load fuel) name m = .ok x m') : m'.HasTypeObject name x := by
  refine ⟨place?_of_typeObject hdiscreet h, fun hname harray => ?_⟩
  rw [typeObject_loaded _ hname] at h
  obtain ⟨l, m₁, hload, hrest⟩ := bind_eq_ok h
  have hserves := (serving hpolite fuel (.load name) m hinv).1
  change (conduct host.path False none).Ends _ m (host.load fuel name m) at hserves
  have hasked : discretion.manner.asks (.begun m) (.load name) m := ⟨trivial, .refl m, nofun⟩
  have hplaced := (honors hdiscreet fuel hasked).1
  change discretion.Ends (Loaded.Placed name) m (host.load fuel name m) at hplaced
  rw [hload] at hserves hplaced
  obtain ⟨hinv₁, -, hanswers, -⟩ := hserves
  cases l with
  | ofArray a =>
      have hplace := hplaced.2.2.1
      simp only [TypePlace.ofLoaded, harray] at hplace
      cases hplace
  | ofClass c =>
      obtain ⟨s, hstanding, hs⟩ := hanswers
      have hmade : classObject (host.load fuel) c.name m₁ = .ok x m' := by
        rw [classObject_eq]
        exact hrest
      have hkept := (Conduct.classObject_speaks (conduct host.path False none) c.name).kept
        hpolite hinv₁ hmade
      exact ⟨c, s, hkept.2.standing hstanding, hs⟩

end Machine.HasTypeObject

theorem occupant_of_loadClass {load : Loader} {cls : Class}
    (hclass : load.loadClass classClassName m = .ok cls m) (p : TypePlace) :
    ∃ x m', occupant load p m = .ok x m' := by
  unfold occupant
  rw [get_bind]
  cases (m.place? p).join with
  | some x => exact ⟨x, m, rfl⟩
  | none =>
      obtain ⟨created, m₁, hnew⟩ : ∃ created m₁, newClassObject load p.name m = .ok created m₁ :=
        ⟨_, _, bind_of_ok hclass⟩
      dsimp only
      rw [bind_of_ok hnew, get_bind]
      cases (m₁.place? p).join with
      | some x => exact ⟨x, m₁, rfl⟩
      | none => exact ⟨created, _, rfl⟩

theorem Machine.Consistent.typeObject_array {path : ClassPath} {cls : Class} {s : ClassState}
    {e : Element} (h : m.Consistent path) (hclass : m.standing? classClassName = some (cls, s))
    (hs : s ≠ .erroneous) (helement : Descriptor.elementOf name = .ok e) (host : Host)
    (fuel : Nat) : ∃ x m', typeObject (host.load (fuel + 1)) name m = .ok x m' := by
  have harray : Descriptor.isArray name = true := by
    obtain ⟨t, -, htext⟩ := Descriptor.exists_text_of_elementOf helement
    exact Descriptor.isArray_iff.mpr ⟨_, htext⟩
  have hname : name ∉ primitiveTypes := fun hmem => by
    have hnot : ∀ primitive ∈ primitiveTypes, Descriptor.isArray primitive = false := by decide
    rw [hnot name hmem] at harray
    cases harray
  obtain ⟨root, hroot, -⟩ := h.assignmentOrder.top cls (mem_registered (class?_of_standing? hclass))
  obtain ⟨a, m₁, hmade, hclasses⟩ : ∃ a m₁, arrayClass name m = .ok a m₁ ∧
      m₁.standing? classClassName = m.standing? classClassName := by
    cases hknown : m.array? name with
    | some entry => exact ⟨_, m, arrayClass_known hknown, rfl⟩
    | none => exact ⟨_, _, arrayClass_made hknown hroot helement, rfl⟩
  have hload : host.load (fuel + 1) name m = .ok (.ofArray a) m₁ := by
    rw [Host.load_succ, Host.loadVia, loadWith_array harray]
    exact bind_of_ok hmade
  rw [typeObject_loaded _ hname, bind_of_ok hload]
  apply occupant_of_loadClass
  rw [Host.loadClass_registered host fuel (by decide) (hclasses.trans hclass), if_neg hs]

/-!
# Names as texts
-/

theorem Native.substitute_back {old new : Char} {text : String} (h : new ∉ text.toList) :
    substitute new old (substitute old new text) = text := by
  have hback : ∀ c ∈ text.toList,
      ((fun c => if c = new then old else c) ∘ fun c => if c = old then new else c) c = c := by
    intro c hc
    by_cases hold : c = old
    · simp [hold]
    · have hnew : c ≠ new := fun heq => h (heq ▸ hc)
      simp [hold, hnew]
  unfold substitute
  rw [String.toList_ofList, List.map_map, List.map_congr_left hback, List.map_id',
    String.ofList_toList]

theorem Machine.instance_of_reflected? (h : m.reflected? x = some name) :
    ∃ i, m.objects[x]? = some (.ofInstance i) ∧ i.reflects = some name := by
  obtain ⟨o, ho, hreflects⟩ := Option.bind_eq_some_iff.mp h
  cases o with
  | ofInstance i => exact ⟨i, ho, hreflects⟩
  | ofArray a => cases hreflects

namespace Native

open OperandStack

theorem pushObject_apply (y : MachineM Nat) (below : List Slot) (m : Machine) :
    (do pushReference (some (← (liftM y : NativeM Nat))) : NativeM Unit) ⟨⟨below⟩, m⟩ =
      match y m with
      | .ok x m' => .ok () ⟨⟨.reference (some x) :: below⟩, m'⟩
      | .error e m' => .error e ⟨⟨below⟩, m'⟩ := by
  cases hy : y m with
  | ok x m' =>
      have hlift : (liftM y : NativeM Nat) ⟨⟨below⟩, m⟩ = .ok x ⟨⟨below⟩, m'⟩ := by
        show Workspace.onMachine y ⟨⟨below⟩, m⟩ = _
        simp only [Workspace.onMachine, hy]
      rw [bind_of_ok hlift]
      rfl
  | error e m' =>
      have hlift : (liftM y : NativeM Nat) ⟨⟨below⟩, m⟩ = .error e ⟨⟨below⟩, m'⟩ := by
        show Workspace.onMachine y ⟨⟨below⟩, m⟩ = _
        simp only [Workspace.onMachine, hy]
      exact bind_of_error hlift

theorem getName_apply (load : Loader) (below : List Slot) (h : m.reflected? x = some name) :
    getName load ⟨⟨.reference (some x) :: below⟩, m⟩ =
      match newString load (substitute '/' '.' name) m with
      | .ok s m' => .ok () ⟨⟨.reference (some s) :: below⟩, m'⟩
      | .error e m' => .error e ⟨⟨below⟩, m'⟩ := by
  obtain ⟨i, hi, hreflects⟩ := instance_of_reflected? h
  have hpop : (liftM (popObject "getName receiver") : NativeM Nat)
      ⟨⟨.reference (some x) :: below⟩, m⟩ = .ok x ⟨⟨below⟩, m⟩ := rfl
  have hinstance : (liftM (instanceAt x) : NativeM Instance) ⟨⟨below⟩, m⟩ =
      .ok i ⟨⟨below⟩, m⟩ := by
    show Workspace.onMachine (instanceAt x) ⟨⟨below⟩, m⟩ = _
    simp only [Workspace.onMachine, instanceAt_found hi]
  unfold getName
  rw [bind_of_ok hpop, bind_of_ok hinstance]
  simp only [hreflects]
  exact pushObject_apply _ below m

theorem forName_apply (load : Loader) (caller loader : Reference) (flag : Int32)
    (below : List Slot) {s : Nat} {text : String} (h : m.textOf s = .ok text) :
    forName load ⟨⟨.reference caller :: .reference loader :: .int flag ::
        .reference (some s) :: below⟩, m⟩ =
      match Machine.typeObject load (substitute '.' '/' text) m with
      | .ok x m' => .ok () ⟨⟨.reference (some x) :: below⟩, m'⟩
      | .error e m' => .error e ⟨⟨below⟩, m'⟩ := by
  have htext : popText "class name" ⟨⟨.reference (some s) :: below⟩, m⟩ =
      .ok text ⟨⟨below⟩, m⟩ := by
    show (liftM (m.textOf s) : NativeM String) ⟨⟨below⟩, m⟩ = _
    rw [h]
    rfl
  have hrest : forName load ⟨⟨.reference caller :: .reference loader :: .int flag ::
        .reference (some s) :: below⟩, m⟩ =
      (do
        let name ← popText "class name"
        pushReference (some (← Machine.typeObject load (substitute '.' '/' name))) : NativeM Unit)
          ⟨⟨.reference (some s) :: below⟩, m⟩ := rfl
  rw [hrest, bind_of_ok htext]
  exact pushObject_apply _ below m

end Native

theorem Text.length_le_toUnits (text : String) : text.length ≤ (toUnits text).length := by
  have hunits (chars : List Char) : chars.length ≤ (chars.flatMap charUnits).length := by
    induction chars with
    | nil => exact Nat.le_refl _
    | cons c rest ih =>
        have hone : 1 ≤ (charUnits c).length := by
          unfold charUnits
          split <;> simp
        rw [List.flatMap_cons, List.length_append, List.length_cons]
        omega
  exact hunits text.toList

theorem TextField.length_le_numbers (f : TextField) (text : String) :
    text.length ≤ (f.numbers text).length := by
  have hunits := Text.length_le_toUnits text
  cases f with
  | chars => rwa [numbers, List.length_map]
  | bytes =>
      by_cases hlatin : Text.IsLatin text
      · rw [numbers_latin hlatin, List.length_map, String.length_toList]
      · have hnumbers : bytes.numbers text =
            (Text.toUnits text).flatMap fun u => [u.toNat / 256, u.toNat % 256] := if_neg hlatin
        rw [hnumbers, List.length_flatMap]
        simp only [List.length_cons, List.length_nil, List.map_const', List.sum_replicate]
        simp only [smul_eq_mul]
        omega

/-!
# The string of a name
-/

section

variable {cls : Class} {s : ClassState} {f : TextField} {path : ClassPath}

theorem Machine.Consistent.loadArray (h : m.Consistent path) (hstanding : m.standing? name =
    some (cls, s)) (f : TextField) (host : Host) (fuel : Nat) :
    ∃ a m', (host.load (fuel + 1)).loadArray f.descriptor m = .ok a m' ∧ a.name = f.descriptor := by
  obtain ⟨root, hroot, -⟩ :=
    h.assignmentOrder.top cls (mem_registered (class?_of_standing? hstanding))
  have harray : Descriptor.isArray f.descriptor = true := by cases f <;> decide
  have helement : Descriptor.elementOf f.descriptor = .ok f.element := by cases f <;> decide
  rw [Host.loadArray_eq host fuel harray]
  exact arrayClass_of_root hroot helement

/-- A text becomes a string from which it is read back, unless no array can hold it. -/
theorem Machine.Consistent.newString_outcome (h : m.Consistent path)
    (hstanding : m.standing? stringName = some (cls, s)) (hs : s ≠ .erroneous)
    (hkeeps : cls.KeepsText f) (host : Host) (fuel : Nat) (text : String) :
    ((f.numbers text).length < 2 ^ 31 ∧ ∃ address m',
        newString (host.load (fuel + 1)) text m = .ok address m' ∧ m'.textOf address = .ok text) ∨
      (2 ^ 31 ≤ (f.numbers text).length ∧ ∃ fault m',
        newString (host.load (fuel + 1)) text m = .error (.fault fault) m') := by
  have hclass : (host.load (fuel + 1)).loadClass stringName m = .ok cls m := by
    rw [Host.loadClass_registered host fuel (by decide) hstanding, if_neg hs]
  obtain ⟨arrayCls, m₁, harray, hname⟩ := h.loadArray hstanding f host fuel
  rcases Nat.lt_or_ge (f.numbers text).length (2 ^ 31) with hsize | hsize
  · obtain ⟨m', hnew, hobjects⟩ := newString_eq_ok hclass hkeeps harray hsize
    have hcontents : m'.objects[m₁.objects.size]? =
        some (.ofArray ⟨arrayCls, f.contents text⟩) := by
      rw [hobjects, Array.getElem?_push, Array.size_push, if_neg (by omega),
        Array.getElem?_push_size]
    have hobject : m'.objects[m₁.objects.size + 1]? =
        some (.ofInstance (textObject cls f text m₁.objects.size)) := by
      rw [hobjects, Array.getElem?_push, Array.size_push, if_pos rfl]
    have hcls : (textObject cls f text m₁.objects.size).cls.KeepsText f := by
      rw [textObject_cls]
      exact hkeeps
    exact .inl ⟨hsize, _, m', hnew, (textObject_keeps hkeeps hname hcontents).textOf hcls hobject⟩
  · obtain ⟨fault, hfails⟩ := newString_exceeds hclass hkeeps harray hsize
    exact .inr ⟨hsize, fault, m₁, hfails⟩

end

/-!
# From an object to its name and back
-/

section

variable (hpolite : host.natives.Polite) (hdiscreet : host.natives.Discreet)
  (h : History host Machine.LeavesTypes events) {e : Event} (he : e ∈ events)

include hpolite h he

theorem History.ordered : (conduct host.path False none).inv e.machine :=
  ((h.mono And.left).chronicle hpolite work_keeps).inv e he

include hdiscreet

/-- An object that is requested at some moment of a history can be had again, and it tells the name
it was requested by. -/
theorem History.typeObject_requested {fuel : Nat}
    (hobject : typeObject (host.load fuel) name e.machine = .ok x m) :
    (conduct host.path False none).inv m ∧ Extends e.machine m ∧ m.HasTypeObject name x ∧
      m.reflected? x = some name := by
  have hinv := h.ordered hpolite he
  have hfaithful := ((history_upheld hdiscreet (h.mono And.right)).after e he).faithful .empty
  have hfound := HasTypeObject.of_typeObject hpolite hdiscreet hinv hobject
  have hupholds := (Conduct.typeObject_speaks _ name).upheld hdiscreet hobject
  have hreflected := (hupholds.faithful hfaithful).reflected hfound.place
  rw [TypePlace.name_ofName] at hreflected
  obtain ⟨hinv', hextends⟩ := (Conduct.typeObject_speaks _ name).kept hpolite hinv hobject
  exact ⟨hinv', hextends, hfound, hreflected⟩

theorem History.name_told {cls : Class} {s : ClassState}
    (hstring : e.machine.standing? stringName = some (cls, s)) (hs : s ≠ .erroneous)
    {f : TextField} (hkeeps : cls.KeepsText f) {fuel : Nat}
    (hobject : typeObject (host.load fuel) name e.machine = .ok x m) (fuel' : Nat)
    (below : List Slot) :
    ((f.numbers (Native.substitute '/' '.' name)).length < 2 ^ 31 ∧ ∃ address m',
        newString (host.load (fuel' + 1)) (Native.substitute '/' '.' name) m = .ok address m' ∧
        Native.getName (host.load (fuel' + 1)) ⟨⟨.reference (some x) :: below⟩, m⟩ =
          .ok () ⟨⟨.reference (some address) :: below⟩, m'⟩ ∧
        m'.textOf address = .ok (Native.substitute '/' '.' name)) ∨
      (2 ^ 31 ≤ (f.numbers (Native.substitute '/' '.' name)).length ∧ ∃ fault w,
        Native.getName (host.load (fuel' + 1)) ⟨⟨.reference (some x) :: below⟩, m⟩ =
          .error (.fault fault) w) := by
  obtain ⟨hinv, hextends, -, hreflected⟩ := h.typeObject_requested hpolite hdiscreet he hobject
  rw [Native.getName_apply _ below hreflected]
  rcases (hinv.2.1.consistent hinv.1).newString_outcome (hextends.standing hstring) hs hkeeps host
    fuel' (Native.substitute '/' '.' name) with
    ⟨hsize, address, m', hnew, htext⟩ | ⟨hsize, fault, m', hfails⟩
  · exact .inl ⟨hsize, address, m', hnew, by simp only [hnew], htext⟩
  · exact .inr ⟨hsize, fault, ⟨⟨below⟩, m'⟩, by simp only [hfails]⟩

/-- An array type has an object however long its name is, but a name that is too long for an array
becomes no string. -/
theorem History.long_name_untold {cls cls' : Class} {s s' : ClassState}
    (hclass : e.machine.standing? classClassName = some (cls', s')) (hs' : s' ≠ .erroneous)
    (hstring : e.machine.standing? stringName = some (cls, s)) (hs : s ≠ .erroneous)
    {f : TextField} (hkeeps : cls.KeepsText f) {element : Element}
    (helement : Descriptor.elementOf name = .ok element) (hlong : 2 ^ 31 ≤ name.length)
    (fuel : Nat) :
    ∃ x m, typeObject (host.load (fuel + 1)) name e.machine = .ok x m ∧
      ∀ fuel' below w, Native.getName (host.load (fuel' + 1))
        ⟨⟨.reference (some x) :: below⟩, m⟩ ≠ .ok () w := by
  have hinv := h.ordered hpolite he
  obtain ⟨x, m, hobject⟩ :=
    (hinv.2.1.consistent hinv.1).typeObject_array hclass hs' helement host fuel
  refine ⟨x, m, hobject, fun fuel' below w hw => ?_⟩
  rcases h.name_told hpolite hdiscreet he hstring hs hkeeps hobject fuel' below with
    ⟨hsize, -⟩ | ⟨-, fault, w', hfails⟩
  · have hlength : (Native.substitute '/' '.' name).length = name.length := by
      unfold Native.substitute
      rw [String.length_ofList, List.length_map, String.length_toList]
    have hnumbers := f.length_le_numbers (Native.substitute '/' '.' name)
    omega
  · rw [hfails] at hw
    cases hw

end

/-- At any moment of a history, the name that the object of a type tells becomes a string exactly
when an array can hold it, and from that string the same object is found.  What is below on the
stack stays as it is. -/
theorem History.type_found_by_name (hpolite : host.natives.Polite)
    (hdiscreet : host.natives.Discreet) (h : History host Machine.LeavesTypes events) {e : Event}
    (he : e ∈ events) {cls : Class} {s : ClassState}
    (hstring : e.machine.standing? stringName = some (cls, s)) (hs : s ≠ .erroneous)
    {f : TextField} (hkeeps : cls.KeepsText f) (hname : '.' ∉ name.toList) {fuel : Nat}
    (hobject : typeObject (host.load fuel) name e.machine = .ok x m) (fuel' : Nat)
    (below : List Slot) :
    ((∃ w, Native.getName (host.load (fuel' + 1)) ⟨⟨.reference (some x) :: below⟩, m⟩ =
        .ok () w) ↔ (f.numbers (Native.substitute '/' '.' name)).length < 2 ^ 31) ∧
    ∀ w, Native.getName (host.load (fuel' + 1)) ⟨⟨.reference (some x) :: below⟩, m⟩ = .ok () w →
      ∃ address, w.stack = ⟨.reference (some address) :: below⟩ ∧
        w.machine.textOf address = .ok (Native.substitute '/' '.' name) ∧
        ∀ fuel'' caller loader flag below,
          Native.forName (host.load (fuel'' + 1))
              ⟨⟨.reference caller :: .reference loader :: .int flag ::
                .reference (some address) :: below⟩, w.machine⟩ =
            .ok () ⟨⟨.reference (some x) :: below⟩, w.machine⟩ := by
  obtain ⟨hinv, -, hfound, -⟩ := h.typeObject_requested hpolite hdiscreet he hobject
  rcases h.name_told hpolite hdiscreet he hstring hs hkeeps hobject fuel' below with
    ⟨hsize, address, m', hnew, htold, htext⟩ | ⟨hsize, fault, w, hfails⟩
  · have hmade : newString (host.oracle (fuel' + 1)).load (Native.substitute '/' '.' name) m =
        .ok address m' := hnew
    have hkept := (Conduct.newString_speaks _ _).kept hpolite hinv hmade
    have hupheld := (Conduct.newString_speaks _ _).upheld hdiscreet hmade
    rw [htold]
    refine ⟨⟨fun _ => hsize, fun _ => ⟨_, rfl⟩⟩, fun w hw => ?_⟩
    cases hw
    refine ⟨address, rfl, htext, fun fuel'' caller loader flag below => ?_⟩
    rw [Native.forName_apply _ caller loader flag below htext, Native.substitute_back hname,
      (hfound.next hupheld hkept.2).typeObject]
  · rw [hfails]
    refine ⟨⟨fun ⟨w, hw⟩ => ?_, fun hlt => absurd hsize (Nat.not_le.mpr hlt)⟩, fun w hw => ?_⟩
    · cases hw
    · cases hw

end

namespace Naming

/-!
A class library in which there are strings, and the object of an array type.
-/

def host : Host :=
  Sample.host
    [(stringName, StringClass.file),
      (classClassName, Sample.file classClassName (some rootName) [] []),
      ("app/Main", Sample.file "app/Main" (some rootName) [] [])]

def machine : Machine := endOf ((Request.load stringName).run host 16) Machine.empty

theorem facts :
    TypedHeap.ended ((Request.load stringName).run host 16 Machine.empty) = true ∧
      (machine.standing? stringName).map (fun p => (decide (p.1.KeepsText .bytes), p.2)) =
        some (true, .initialized) ∧
      Reentry.addressOf (typeObject (host.load 16) "[Lapp/Main;" machine) = some 1 ∧
      (TextField.bytes.numbers (Native.substitute '/' '.' "[Lapp/Main;")).length = 11 := by
  decide +kernel

theorem history :
    History host Machine.LeavesTypes [.rested Machine.empty, .rested machine] :=
  (Rests.next .empty (.load stringName) 16 facts.1).history

def furnished : Machine := endOf ((Request.load classClassName).run host 16) machine

theorem furnished_facts :
    TypedHeap.ended ((Request.load classClassName).run host 16 machine) = true ∧
      (furnished.standing? stringName).map (fun p => (decide (p.1.KeepsText .bytes), p.2)) =
        some (true, .initialized) ∧
      (furnished.standing? classClassName).map Prod.snd = some .initialized := by
  decide +kernel

theorem furnished_history :
    History host Machine.LeavesTypes
      [.rested Machine.empty, .rested machine, .rested furnished] :=
  ((Rests.next .empty (.load stringName) 16 facts.1).next (.load classClassName) 16
    furnished_facts.1).history

/-- The name of an array type of more dimensions than an array has elements. -/
def deepName : String :=
  Descriptor.bracketed (2 ^ 31 + 1) (String.ofList Descriptor.TypeTree.int.text)

/-- The object of that array type can be had, but its name becomes no string. -/
theorem deep_name_untold :
    History host Machine.LeavesTypes
        [.rested Machine.empty, .rested machine, .rested furnished] ∧
      (∃ cls, furnished.standing? classClassName = some (cls, .initialized)) ∧
      (∃ cls, furnished.standing? stringName = some (cls, .initialized) ∧ cls.KeepsText .bytes) ∧
      '.' ∉ deepName.toList ∧
      ∃ x m, typeObject (host.load 1) deepName furnished = .ok x m ∧
        ∀ fuel below w, Native.getName (host.load (fuel + 1))
          ⟨⟨.reference (some x) :: below⟩, m⟩ ≠ .ok () w := by
  obtain ⟨-, hstanding, hclass⟩ := furnished_facts
  obtain ⟨⟨cls, s⟩, hstring, hfacts⟩ := Option.map_eq_some_iff.mp hstanding
  obtain ⟨hkeeps, rfl : s = .initialized⟩ := Prod.mk.inj hfacts
  obtain ⟨⟨cls', s'⟩, hready, rfl : s' = .initialized⟩ := Option.map_eq_some_iff.mp hclass
  have htext : deepName.toList = List.replicate (2 ^ 31 + 1) '[' ++ ['I'] :=
    Descriptor.toList_bracketed _ _
  have hlong : 2 ^ 31 ≤ deepName.length := by
    rw [← String.length_toList, htext, List.length_append, List.length_replicate]
    omega
  have hdots : '.' ∉ deepName.toList := by
    rw [htext]
    intro hdot
    rcases List.mem_append.mp hdot with hdot | hdot
    · exact absurd (List.eq_of_mem_replicate hdot) (by decide)
    · exact absurd hdot (by decide)
  have helement := Descriptor.elementOf_bracketed (u := .int) trivial (2 ^ 31)
  have he : Event.rested furnished ∈
      [.rested Machine.empty, .rested machine, .rested furnished] := by
    simp
  have hmachine : (Event.rested furnished).machine = furnished := by rw [Event.machine]
  have hready' := hready
  have hstring' := hstring
  rw [← hmachine] at hready' hstring'
  have huntold := furnished_history.long_name_untold Native.library_polite Native.library_discreet
    he hready' (by decide) hstring' (by decide) (of_decide_eq_true hkeeps) helement hlong 0
  rw [hmachine] at huntold
  exact ⟨furnished_history, ⟨cls', hready⟩, ⟨cls, hstring, of_decide_eq_true hkeeps⟩, hdots,
    huntold⟩

/-- The object of the array type is found by the name that it tells. -/
theorem array_type_found :
    ∃ m w address, typeObject (host.load 16) "[Lapp/Main;" machine = .ok 1 m ∧
      Native.getName (host.load 1) ⟨⟨[.reference (some 1), .int 7]⟩, m⟩ = .ok () w ∧
      w.stack = ⟨[.reference (some address), .int 7]⟩ ∧
      w.machine.textOf address = .ok (Native.substitute '/' '.' "[Lapp/Main;") ∧
      Native.forName (host.load 1)
          ⟨⟨[.reference none, .reference none, .int 0, .reference (some address), .int 7]⟩,
            w.machine⟩ =
        .ok () ⟨⟨[.reference (some 1), .int 7]⟩, w.machine⟩ := by
  obtain ⟨-, hstanding, hanswer, hlength⟩ := facts
  obtain ⟨⟨cls, s⟩, hstring, hfacts⟩ := Option.map_eq_some_iff.mp hstanding
  obtain ⟨hkeeps, hs⟩ := Prod.mk.inj hfacts
  have hready : s ≠ .erroneous := by
    rw [show s = .initialized from hs]
    decide
  have hdots : '.' ∉ "[Lapp/Main;".toList := by decide +kernel
  obtain ⟨m, hobject⟩ : ∃ m, typeObject (host.load 16) "[Lapp/Main;" machine = .ok 1 m := by
    cases hx : typeObject (host.load 16) "[Lapp/Main;" machine with
    | ok address m =>
        rw [hx] at hanswer
        rw [Option.some.inj hanswer]
        exact ⟨m, rfl⟩
    | error e m =>
        rw [hx] at hanswer
        cases hanswer
  have he : Event.rested machine ∈ [.rested Machine.empty, .rested machine] :=
    List.mem_cons_of_mem _ List.mem_cons_self
  have hmachine : machine = (Event.rested machine).machine := by rw [Event.machine]
  have hasked := hobject
  rw [hmachine] at hstring hasked
  obtain ⟨hnames, hback⟩ := history.type_found_by_name Native.library_polite
    Native.library_discreet he hstring hready (of_decide_eq_true hkeeps) hdots hasked 0 [.int 7]
  have hshort : (TextField.bytes.numbers (Native.substitute '/' '.' "[Lapp/Main;")).length <
      2 ^ 31 := by
    rw [hlength]
    decide
  obtain ⟨w, hw⟩ := hnames.mpr hshort
  obtain ⟨address, hstack, htext, hfound⟩ := hback w hw
  exact ⟨m, w, address, hobject, hw, hstack, htext, hfound 0 none none 0 [.int 7]⟩

end Naming

end Bytecode
