import Bytecode.Proofs.Loading.Registry

/-!
# Classes that can be loaded

Which classes a class path allows to be loaded can be told from the files alone: a class can be
loaded if its file is right, and so are those of all supertypes, of which there are only finitely
many above each other.  Every registered class is one of these.
-/

namespace Bytecode

open Machine

/-!
# Files
-/

namespace ClassFile

/-- Every descriptor of a member is accepted, and methods have code where they need it. -/
structure WellFormed (file : ClassFile) : Prop where
  fields : ∀ f ∈ file.fields, ∃ type, Descriptor.fieldType f.descriptor = .ok type
  methods : ∀ m ∈ file.methods, ∃ signature, Descriptor.signature m.descriptor = .ok signature
  code : ∀ m ∈ file.methods, m.access.isNative = false → m.access.isAbstract = false →
    ∃ body, m.body? = some body

/-- The file declares no constant of a field and no static initializer. -/
structure Idle (file : ClassFile) : Prop where
  constants : ∀ f ∈ file.fields, f.constantValue? = none
  initializer : ∀ m ∈ file.methods, ¬ (m.name = "<clinit>" ∧ m.descriptor = "()V")

end ClassFile

theorem exists_mapM_iff {ε α β : Type} {f : α → Except ε β} {items : List α} :
    (∃ results, items.mapM f = .ok results) ↔ ∀ a ∈ items, ∃ b, f a = .ok b := by
  induction items with
  | nil => exact ⟨fun _ => List.forall_mem_nil _, fun _ => ⟨[], rfl⟩⟩
  | cons a items ih =>
      rw [List.forall_mem_cons, ← ih, List.mapM_cons]
      cases f a with
      | error e => simp [bind, Except.bind]
      | ok b =>
          cases items.mapM f with
          | error e => simp [bind, Except.bind]
          | ok rest => simp [bind, Except.bind, pure, Except.pure]

theorem Field.exists_ofMember_iff {owner : String} {member : Member} :
    (∃ f, Field.ofMember owner member = .ok f) ↔
      ∃ type, Descriptor.fieldType member.descriptor = .ok type := by
  unfold Field.ofMember
  cases Descriptor.fieldType member.descriptor with
  | error e => simp [bind, Except.bind]
  | ok type => simp [bind, Except.bind, pure, Except.pure]

theorem Method.exists_ofMember_iff {owner : String} {member : Member} :
    (∃ method, Method.ofMember owner member = .ok method) ↔
      (∃ signature, Descriptor.signature member.descriptor = .ok signature) ∧
        (member.access.isNative = false → member.access.isAbstract = false →
          ∃ body, member.body? = some body) := by
  unfold Method.ofMember
  split
  next e he => simp [he]
  next signature hsignature =>
      cases member.body? with
      | some body => simp [hsignature]
      | none =>
          cases member.access.isNative <;> cases member.access.isAbstract <;> simp [hsignature]

/-- A class can be made of the file exactly if the file is well formed. -/
theorem Declarations.exists_ofFile_iff {file : ClassFile} :
    (∃ d, Declarations.ofFile file = .ok d) ↔ file.WellFormed := by
  have hfields : (∃ fields, file.fields.mapM (Field.ofMember file.name) = .ok fields) ↔
      ∀ f ∈ file.fields, ∃ type, Descriptor.fieldType f.descriptor = .ok type := by
    simp only [exists_mapM_iff, Field.exists_ofMember_iff]
  have hmethods : (∃ methods, file.methods.mapM (Method.ofMember file.name) = .ok methods) ↔
      ∀ m ∈ file.methods, (∃ signature, Descriptor.signature m.descriptor = .ok signature) ∧
        (m.access.isNative = false → m.access.isAbstract = false →
          ∃ body, m.body? = some body) := by
    simp only [exists_mapM_iff, Method.exists_ofMember_iff]
  constructor
  · rintro ⟨d, hd⟩
    obtain ⟨fields, methods, hf, hm, -⟩ := ofFile_eq_ok hd
    exact ⟨hfields.mp ⟨fields, hf⟩, fun m h => (hmethods.mp ⟨methods, hm⟩ m h).1,
      fun m h => (hmethods.mp ⟨methods, hm⟩ m h).2⟩
  · intro hfile
    obtain ⟨fields, hf⟩ := hfields.mpr hfile.fields
    obtain ⟨methods, hm⟩ := hmethods.mpr fun m h => ⟨hfile.methods m h, hfile.code m h⟩
    unfold ofFile
    rw [hf, hm]
    exact ⟨_, rfl⟩

/-!
# Class paths
-/

namespace ClassPath

def Fixed (path : ClassPath) : Prop :=
  ∀ log log' name, path log name = path log' name

theorem ofRows_fixed (rows : List (String × List UInt8)) : (ofRows rows).Fixed :=
  fun _ _ _ => rfl

theorem ofRows_declares {rows : List (String × List UInt8)} {name : String} {file : ClassFile}
    (h : (ofRows rows).Declares name file) :
    ∃ bytes, (name, bytes) ∈ rows ∧ ClassFile.read bytes = .ok file := by
  obtain ⟨log, bytes, hbytes, hread, -⟩ := h
  refine ⟨bytes, ?_, hread⟩
  unfold ofRows at hbytes
  cases hlookup : rows.reverse.lookup name with
  | none =>
      rw [hlookup] at hbytes
      cases hbytes
  | some found =>
      rw [hlookup] at hbytes
      cases hbytes
      exact List.mem_reverse.mp (mem_of_lookup hlookup)

def IsInterface (path : ClassPath) (name : String) : Prop :=
  ∃ file, path.Declares name file ∧ file.access.isInterface = true

/-- The class can be loaded: its file is right, and all supertypes can be loaded. -/
inductive Loadable (path : ClassPath) : String → Prop where
  | intro {name : String} {file : ClassFile} (hname : Descriptor.isArray name = false)
      (hfile : path.Declares name file) (hmembers : file.WellFormed)
      (hroot : file.superName = none ↔ name = rootName)
      (hparent : ∀ superName, file.superName = some superName → Loadable path superName)
      (hclass : ∀ superName, file.superName = some superName → ¬ path.IsInterface superName)
      (hinterfaces : ∀ i ∈ file.interfaces, Loadable path i)
      (hkinds : ∀ i ∈ file.interfaces, path.IsInterface i) : Loadable path name

variable {path : ClassPath} {name other : String} {file : ClassFile}

section

variable (hfixed : path.Fixed)

include hfixed

theorem Fixed.unique {file' : ClassFile} (h : path.Declares name file)
    (h' : path.Declares name file') : file' = file := by
  obtain ⟨log, bytes, hbytes, hread, -⟩ := h
  obtain ⟨log', bytes', hbytes', hread', -⟩ := h'
  rw [hfixed log' log, hbytes] at hbytes'
  cases hbytes'
  rw [hread] at hread'
  cases hread'
  rfl

theorem Fixed.readClassFile (h : path.Declares name file) (m : Machine) :
    Machine.readClassFile path name m = .ok file m := by
  obtain ⟨log, bytes, hbytes, hread, hname⟩ := h
  have hok : (liftM (ClassFile.read bytes) : MachineM ClassFile) m = .ok file m := by
    rw [hread]
    rfl
  unfold Machine.readClassFile
  rw [get_bind, hfixed m.log log, hbytes]
  refine (bind_of_ok hok).trans ?_
  simp only [hname, ne_eq, not_true, if_false]
  rfl

theorem Loadable.supertype (h : path.Loadable name) (hsuper : path.Supertype name other) :
    path.Loadable other := by
  cases h with
  | intro _ hfile _ _ hparent _ hinterfaces _ =>
      obtain ⟨file', hfile', hother⟩ := hsuper
      rw [hfixed.unique hfile hfile'] at hother
      rcases hother with hother | hother
      · exact hparent other hother
      · exact hinterfaces other hother

theorem Loadable.acyclic (h : path.Loadable name) : ¬ path.Ancestor name name := by
  -- a cycle through the class is also one through a supertype, which was loaded before
  induction h with
  | @intro name file _ hfile _ _ _ _ _ _ ihparent ihinterfaces =>
      intro hcycle
      obtain ⟨next, hnext, hback⟩ := Relation.TransGen.head'_iff.mp hcycle
      have hagain : path.Ancestor next next := Relation.TransGen.tail' hback hnext
      obtain ⟨file', hfile', hsuper⟩ := hnext
      rw [hfixed.unique hfile hfile'] at hsuper
      rcases hsuper with hsuper | hsuper
      · exact ihparent next hsuper hagain
      · exact ihinterfaces next hsuper hagain

end

def Free (path : ClassPath) (names : List String) (name : String) : Prop :=
  ∀ n ∈ names, ¬ Relation.ReflTransGen path.Supertype name n

theorem Free.supertype {names : List String} (hfixed : path.Fixed) (h : path.Free names name)
    (hloadable : path.Loadable name) (hsuper : path.Supertype name other) :
    path.Free (name :: names) other := by
  refine List.forall_mem_cons.mpr ⟨fun hback => ?_, fun n hn hreach => ?_⟩
  · exact hloadable.acyclic hfixed (Relation.TransGen.head' hsuper hback)
  · exact h n hn (.head hsuper hreach)

end ClassPath

/-!
# Registered classes
-/

namespace Machine

variable {path : ClassPath} {m : Machine} {name : String} {c : Class} {s : ClassState}
  (h : m.Registry path) (hfixed : path.Fixed)

include h hfixed

theorem Registry.isInterface_iff (hs : m.standing? name = some (c, s)) :
    c.isInterface = true ↔ path.IsInterface name := by
  obtain ⟨file, hfile, hlinks, -⟩ := h name c s hs
  have haccess : c.access = file.access := by
    obtain ⟨fields, methods, -, -, hdeclared⟩ := Declarations.ofFile_eq_ok hlinks.declarations
    rw [Class.access, hdeclared]
  constructor
  · intro hinterface
    refine ⟨file, hfile, ?_⟩
    rwa [← haccess]
  · rintro ⟨file', hfile', hinterface⟩
    rw [hfixed.unique hfile hfile', ← haccess] at hinterface
    exact hinterface

/-- Every registered class can be loaded. -/
theorem Registry.loadable
    (hnames : ∀ {n p}, m.standing? n = some p → Descriptor.isArray n = false)
    (hs : m.standing? name = some (c, s)) : path.Loadable name := by
  -- the supertypes of a class are smaller than the class
  induction hsize : sizeOf c using Nat.strongRecOn generalizing name c s with
  | ind size ih =>
      obtain ⟨file, hfile, hlinks, -⟩ := h name c s hs
      have habove {d : Class} {t : ClassState} (hd : c.parent = some d ∨ d ∈ c.interfaces)
          (ht : m.standing? d.name = some (d, t)) : path.Loadable d.name :=
        ih _ (hsize ▸ Class.sizeOf_lt hd) ht rfl
      apply ClassPath.Loadable.intro (hnames hs) hfile
      · exact Declarations.exists_ofFile_iff.mp ⟨_, hlinks.declarations⟩
      · rw [hlinks.superName, Option.map_eq_none_iff, hlinks.root, standing?_name hs]
      · intro superName hsuper
        rw [hlinks.superName, Option.map_eq_some_iff] at hsuper
        obtain ⟨p, hp, rfl⟩ := hsuper
        obtain ⟨-, t, ht⟩ := hlinks.parent p hp
        exact habove (.inl hp) ht
      · intro superName hsuper hinterface
        rw [hlinks.superName, Option.map_eq_some_iff] at hsuper
        obtain ⟨p, hp, rfl⟩ := hsuper
        obtain ⟨hclass, t, ht⟩ := hlinks.parent p hp
        rw [← h.isInterface_iff hfixed ht, hclass] at hinterface
        cases hinterface
      · intro n hn
        rw [hlinks.interfaceNames] at hn
        obtain ⟨i, hi, rfl⟩ := List.mem_map.mp hn
        obtain ⟨-, t, ht⟩ := hlinks.interfaces i hi
        exact habove (.inr hi) ht
      · intro n hn
        rw [hlinks.interfaceNames] at hn
        obtain ⟨i, hi, rfl⟩ := List.mem_map.mp hn
        obtain ⟨hinterface, t, ht⟩ := hlinks.interfaces i hi
        exact (h.isInterface_iff hfixed ht).mp hinterface

end Machine

end Bytecode
