import Bytecode.Proofs.Loading.Define
import Bytecode.Proofs.TypeObjects.Places

/-!
# Initialization of classes

A class that declares neither a static initializer nor a constant text is initialized without
asking for any other class.  An object that stands for a class can always be made once the class of
such objects is registered, unless the latter failed to be initialized.
-/

namespace Bytecode

open Machine

variable {load load₁ load₂ : Loader} {invoke₁ invoke₂ : Method → MachineM Unit}

/-!
# Requests for registered classes
-/

/-- A registered class is handed out at once, whatever its state, except that a failed one is
refused. -/
def Prompt (load : Loader) : Prop :=
  ∀ {name : String} {m : Machine} {c : Class} {s : ClassState},
    Descriptor.isArray name = false → m.standing? name = some (c, s) →
      load name m = .error .outOfFuel m ∨
        load name m =
          if s = .erroneous then .error (.fault (.illegal (.failedEarlier name))) m
          else .ok (.ofClass c) m

theorem loadWith_registered {path : ClassPath} {invoke : Method → MachineM Unit} {name : String}
    {m : Machine} {c : Class} {s : ClassState} (harray : Descriptor.isArray name = false)
    (h : m.standing? name = some (c, s)) :
    loadWith path load invoke name m =
      if s = .erroneous then .error (.fault (.illegal (.failedEarlier name))) m
      else .ok (.ofClass c) m := by
  rcases Option.map_eq_some_iff.mp h with ⟨e, he, hcs⟩
  cases hcs
  unfold loadWith
  simp only [harray, Bool.false_eq_true, if_false, get_bind, he]
  split <;> rfl

theorem loadWith_prompt (path : ClassPath) (load : Loader) (invoke : Method → MachineM Unit) :
    Prompt (loadWith path load invoke) := fun harray h => .inr (loadWith_registered harray h)

/-!
# Objects that stand for classes
-/

theorem classObject_congr {m : Machine} (h : load₁ classClassName m = load₂ classClassName m)
    (name : String) : classObject load₁ name m = classObject load₂ name m := by
  have hclass : load₁.loadClass classClassName m = load₂.loadClass classClassName m :=
    bind_congr_at _ h
  have hnew : newClassObject load₁ name m = newClassObject load₂ name m :=
    bind_congr_at _ hclass
  unfold classObject
  rw [get_bind, get_bind]
  cases m.registration? name >>= Entry.classObject with
  | some address => rfl
  | none => exact bind_congr_at _ hnew

/-- The machine with an object that stands for the type of a name, made but not kept yet. -/
def mirrored (m : Machine) (cls : Class) (name : String) : Machine :=
  { m with objects := m.objects.push (.ofInstance { Instance.ofClass cls with reflects := name }) }

def reflected (m : Machine) (cls : Class) (name : String) : Machine :=
  (mirrored m cls name).modifyEntry name fun e => { e with classObject := some m.objects.size }

theorem reflected_works (m : Machine) (cls : Class) (name : String) :
    Works m (reflected m cls name) := by
  have hmirrored : Works m (mirrored m cls name) := ⟨rfl, rfl, rfl, rfl⟩
  exact hmirrored.trans (modifyEntry_works _ name fun _ => ⟨rfl, rfl⟩)

section

variable {m m' : Machine} {name : String}
  (hunmade : m.registration? name >>= Entry.classObject = none)

include hunmade

theorem reflected_upholds (cls : Class) : m.Upholds (reflected m cls name) := by
  have hpushed : m.Upholds (mirrored m cls name) := (Spares.push m _).upholds
  have hvacant : ((mirrored m cls name).place? (.ofClass name)).join = none := by
    rw [place?, join_map_eq_bind]
    exact hunmade
  exact hpushed.trans (fill_upholds (p := .ofClass name) trivial hvacant (reflected?_push m _))

theorem classObject_of_error {e : Halt} (h : load classClassName m = .error e m') :
    classObject load name m = .error e m' := by
  have hnew : newClassObject load name m = .error e m' := bind_of_error (bind_of_error h)
  unfold classObject
  rw [get_bind, hunmade]
  exact bind_of_error hnew

theorem classObject_of_ok {cls : Class} (h : load classClassName m = .ok (.ofClass cls) m) :
    classObject load name m = .ok m.objects.size (reflected m cls name) := by
  have hclass : load.loadClass classClassName m = .ok cls m := bind_of_ok h
  have hnew : newClassObject load name m = .ok m.objects.size (mirrored m cls name) :=
    bind_of_ok hclass
  have hstill : (mirrored m cls name).registration? name >>= Entry.classObject = none := hunmade
  unfold classObject
  rw [get_bind, hunmade]
  refine (bind_of_ok hnew).trans ?_
  rw [get_bind, hstill]
  rfl

end

/-- Once the class of objects that stand for types is registered, such an object is there or can be
made, unless that class failed. -/
theorem classObject_prompt (hprompt : Prompt load) {m : Machine} {c : Class} {s : ClassState}
    (h : m.standing? classClassName = some (c, s)) (name : String) :
    classObject load name m = .error .outOfFuel m ∨
      (s = .erroneous ∧
        classObject load name m = .error (.fault (.illegal (.failedEarlier classClassName))) m) ∨
      ∃ address m', classObject load name m = .ok address m' ∧ Works m m' ∧
        (m.registration? name >>= Entry.classObject = none → s ≠ .erroneous) := by
  cases hmade : m.registration? name >>= Entry.classObject with
  | some address =>
      refine .inr (.inr ⟨address, m, ?_, ⟨rfl, rfl, rfl, rfl⟩, nofun⟩)
      unfold classObject
      rw [get_bind, hmade]
      rfl
  | none =>
      rcases hprompt (by decide) h with hload | hload
      · exact .inl (classObject_of_error hmade hload)
      · by_cases hs : s = .erroneous
        · rw [if_pos hs] at hload
          exact .inr (.inl ⟨hs, classObject_of_error hmade hload⟩)
        · rw [if_neg hs] at hload
          exact .inr (.inr ⟨_, _, classObject_of_ok hmade hload, reflected_works m c name,
            fun _ => hs⟩)

/-!
# Constants and static initializers
-/

namespace Class

def HasTextConstant (fields : List Field) (pool : Pool) : Prop :=
  ∃ f ∈ fields, f.access.isFinal ∧
    ∃ index text, f.constantValue = some index ∧ pool.get index = .ok (.string text)

/-- The initialization of the class asks for other classes or runs code. -/
def Initializes (c : Class) (pool : Pool) : Prop :=
  HasTextConstant c.staticFields pool ∨ (c.declaredMethod? "<clinit>" "()V").isSome

end Class

section

variable {C : Charter} {pool : Pool}

theorem constantFor_same {constant : Constant}
    (h : (∃ text, constant = .string text) → C.Loaders load₁ load₂) (f : Field) :
    C.Same (constantFor load₁ pool f constant) (constantFor load₂ pool f constant) := by
  unfold constantFor
  split
  · exact .pure _
  · exact .pure _
  · exact .pure _
  · exact .pure _
  · exact (Charter.liftMalformed_same (pool.utf8_fails _)).bind fun text =>
      (Charter.newString_same (h ⟨_, rfl⟩) text).bind fun _ => .pure _
  · exact .fail (C.ordinary nofun)

theorem assignConstant_same {f : Field}
    (h : Class.HasTextConstant [f] pool → C.Loaders load₁ load₂) (position : Nat) :
    C.Same (assignConstant load₁ pool position f) (assignConstant load₂ pool position f) := by
  unfold assignConstant
  split
  next index hindex =>
      refine .ite (fun hfinal => ?_) fun _ => .pure ()
      refine Terms.Alike.bind (Q := fun constant _ => pool.get index = .ok constant) ?_
        fun constant => ?_
      · exact .liftMalformed (fun e he => C.ordinary (pool.get_fails index e he).ordinary)
          fun _ _ hconstant _ => hconstant
      · by_cases hconstant : pool.get index = .ok constant
        · have htext : (∃ text, constant = .string text) → C.Loaders load₁ load₂ := by
            rintro ⟨text, rfl⟩
            exact h ⟨f, List.mem_cons_self, hfinal, index, text, hindex, hconstant⟩
          refine ((constantFor_same htext f).bind fun value => ?_).alike
          exact Charter.modify_same (fun m => modifyEntry_works m f.owner fun _ => ⟨rfl, rfl⟩)
            (fun _ => rfl) fun _ hm => hm.setStaticAt f.owner position value
        · intro m _ hm
          exact absurd hm hconstant
  next => exact .pure ()

theorem assignConstants_same {fields : List Field}
    (h : Class.HasTextConstant fields pool → C.Loaders load₁ load₂) (position : Nat) :
    C.Same (assignConstants load₁ pool position fields)
      (assignConstants load₂ pool position fields) := by
  induction fields generalizing position with
  | nil => exact .pure ()
  | cons f rest ih =>
      refine (assignConstant_same (fun hone => h ?_) position).bind fun _ =>
        ih (fun hrest => h ?_) (position + 1)
      · rcases hone with ⟨g, hg, hconstant⟩
        rw [List.mem_singleton.mp hg] at hconstant
        exact ⟨f, List.mem_cons_self, hconstant⟩
      · rcases hrest with ⟨g, hg, hconstant⟩
        exact ⟨g, List.mem_cons_of_mem f hg, hconstant⟩

/-- The loader and the interpreter matter to the initialization of a class only if it has something
to run. -/
theorem runInitializer_alike {c : Class}
    (h : c.Initializes pool → C.Loaders load₁ load₂ ∧
      ∀ method, C.Alike (C.Calls method) (fun _ _ => True) (invoke₁ method) (invoke₂ method)) :
    C.Alike (fun m => m.pool? c.name = some pool ∧ C.Has c m) (fun _ _ => True)
      (runInitializer load₁ invoke₁ c) (runInitializer load₂ invoke₂ c) := by
  refine .get_bind fun m hm => ?_
  simp only [hm.1]
  have hassign := assignConstants_same (fun htext => (h (.inl htext)).1) 0
  refine ((hassign.along (F := C.Has c) Charter.Has.keep).mono (fun m' _ heq => ?_)
    fun _ _ _ hq => hq).bind fun _ => ?_
  · rw [heq]
    exact hm.2
  split
  next method hmethod =>
      have hmem : method ∈ c.methods := List.mem_of_find?_eq_some hmethod
      have hsome : (c.declaredMethod? "<clinit>" "()V").isSome := by
        rw [hmethod]
        rfl
      exact ((h (.inr hsome)).2 method).mono (fun _ _ hc hg => ⟨c, hc hg, hmem⟩)
        fun _ _ _ hq => hq
  next => exact .pure fun _ _ _ => trivial

end

/-!
# What a class has from its file
-/

theorem mem_of_mapM {ε α β : Type} {f : α → Except ε β} {items : List α} {results : List β}
    (h : items.mapM f = .ok results) {b : β} (hb : b ∈ results) : ∃ a ∈ items, f a = .ok b := by
  induction items generalizing results with
  | nil =>
      cases h
      cases hb
  | cons a items ih =>
      rw [List.mapM_cons] at h
      cases ha : f a with
      | error e =>
          rw [ha] at h
          cases h
      | ok b' =>
          cases hrest : items.mapM f with
          | error e =>
              rw [ha, hrest] at h
              cases h
          | ok rest =>
              rw [ha, hrest] at h
              cases h
              rcases List.mem_cons.mp hb with rfl | hb
              · exact ⟨a, List.mem_cons_self, ha⟩
              · rcases ih hrest hb with ⟨a', ha', hfa'⟩
                exact ⟨a', List.mem_cons_of_mem a ha', hfa'⟩

theorem Field.ofMember_eq_ok {owner : String} {member : Member} {f : Field}
    (h : Field.ofMember owner member = .ok f) :
    f.access = member.access ∧ f.constantValue = member.constantValue? := by
  unfold Field.ofMember at h
  cases hd : Descriptor.fieldType member.descriptor with
  | error e =>
      rw [hd] at h
      cases h
  | ok type =>
      rw [hd] at h
      cases h
      exact ⟨rfl, rfl⟩

theorem Method.ofMember_eq_ok {owner : String} {member : Member} {method : Method}
    (h : Method.ofMember owner member = .ok method) :
    method.name = member.name ∧ method.descriptor = member.descriptor ∧ method.owner = owner := by
  unfold Method.ofMember at h
  split at h
  next => cases h
  next =>
      split at h
      · cases h
        exact ⟨rfl, rfl, rfl⟩
      · split at h
        · cases h
          exact ⟨rfl, rfl, rfl⟩
        · cases h

theorem Declarations.ofFile_eq_ok {file : ClassFile} {d : Declarations}
    (h : Declarations.ofFile file = .ok d) :
    ∃ fields methods, file.fields.mapM (Field.ofMember file.name) = .ok fields ∧
      file.methods.mapM (Method.ofMember file.name) = .ok methods ∧
        d = ⟨file.name, file.access, fields.filter (·.access.isStatic),
          fields.filter (!·.access.isStatic), methods⟩ := by
  unfold Declarations.ofFile at h
  cases hfields : file.fields.mapM (Field.ofMember file.name) with
  | error e =>
      rw [hfields] at h
      cases h
  | ok fields =>
      cases hmethods : file.methods.mapM (Method.ofMember file.name) with
      | error e =>
          rw [hfields, hmethods] at h
          cases h
      | ok methods =>
          rw [hfields, hmethods] at h
          cases h
          exact ⟨fields, methods, rfl, rfl, rfl⟩

theorem Class.Initializes.file {c : Class} {file : ClassFile}
    (h : Declarations.ofFile file = .ok c.declarations) (hinit : c.Initializes file.pool) :
    file.Initializes := by
  rcases Declarations.ofFile_eq_ok h with ⟨fields, methods, hfields, hmethods, hdeclared⟩
  rcases hinit with ⟨f, hf, hfinal, index, text, hindex, htext⟩ | hclinit
  · rw [Class.staticFields, hdeclared] at hf
    rcases List.mem_filter.mp hf with ⟨hf, hstatic⟩
    rcases mem_of_mapM hfields hf with ⟨member, hmember, hof⟩
    rcases Field.ofMember_eq_ok hof with ⟨haccess, hvalue⟩
    rw [haccess] at hfinal hstatic
    rw [hvalue] at hindex
    exact .inr ⟨member, hmember, hstatic, hfinal, index, text, hindex, htext⟩
  · rcases Option.isSome_iff_exists.mp hclinit with ⟨method, hmethod⟩
    have hnamed := List.find?_some hmethod
    have hmem := List.mem_of_find?_eq_some hmethod
    rw [Class.methods, hdeclared] at hmem
    rcases mem_of_mapM hmethods hmem with ⟨member, hmember, hof⟩
    rcases Method.ofMember_eq_ok hof with ⟨hname, hdescriptor, -⟩
    simp only [Method.isNamed, Bool.and_eq_true, beq_iff_eq, hname, hdescriptor] at hnamed
    exact .inl ⟨member, hmember, hnamed.1, hnamed.2⟩

end Bytecode
