import Bytecode.Proofs.Dialogue.Loading
import Bytecode.Proofs.Loading.Registry

/-!
# Loads in dialogue

A load is a dialogue of a fixed form: it asks for the supertypes of its class, registers the class,
asks for what its object and its constants need, and asks for the static initializer to be run as
the last thing, if there is one.  All the time its own class is marked as being loaded.
-/

namespace Bytecode

open Machine Scene

variable {path : ClassPath} {typed : Prop} {stack : Option (List String)} {m m' : Machine}
  {name : String} {c : Class}

/-!
# Conduct of the loader
-/

def Advances (typed : Prop) (m m' : Machine) : Prop :=
  Evolves m m' ∧ (typed → Grows m m')

theorem Advances.refl (m : Machine) : Advances typed m m :=
  ⟨Evolves.refl m, fun _ => Grows.of_eq rfl⟩

theorem Advances.trans {a b c : Machine} (h : Advances typed a b) (h' : Advances typed b c) :
    Advances typed a c :=
  ⟨h.1.trans h'.1, fun ht => (h.2 ht).trans (h'.2 ht)⟩

theorem Advances.of_extends (h : Extends m m' ∧ (typed → Grows m m')) : Advances typed m m' :=
  ⟨h.1.evolves, h.2⟩

/-- Machine and registry stay in order.  If `stack` is given, these are the names of the classes
being loaded. -/
def ordered (path : ClassPath) (typed : Prop) (stack : Option (List String)) : Terms Machine where
  inv m := m.Orderly ∧ m.Registry path ∧ (typed → m.Sound) ∧ ∀ names ∈ stack, m.loading = names
  rel m m' := Extends m m' ∧ (typed → Grows m m')
  err _ := True
  rel_refl m := ⟨Extends.refl m, fun _ => Grows.of_eq rfl⟩
  rel_trans h h' := ⟨h.1.trans h'.1, fun ht => (h.2 ht).trans (h'.2 ht)⟩

theorem ordered_work (hinv : (ordered path typed stack).inv m) (hw : Works m m')
    (hsound : typed → m'.Sound ∧ Grows m m') :
    (ordered path typed stack).inv m' ∧ (ordered path typed stack).rel m m' := by
  obtain ⟨horderly, hregistry, -, hstack⟩ := hinv
  refine ⟨⟨horderly.works hw, hregistry.of_eq hw.standing? hw.pool?, fun ht => (hsound ht).1, ?_⟩,
    hw.extends, fun ht => (hsound ht).2⟩
  intro names hnames
  rw [hw.loading, hstack names hnames]

theorem ordered_names (hinv : (ordered path typed stack).inv m) :
    (m.classes.map fun e => e.cls.name).Nodup := by
  have hnames := hinv.1.names
  rwa [standings, List.map_map] at hnames

/-- Requests that keep machine and registry in order.  If `stack` is given, no code is run. -/
def conduct (path : ClassPath) (typed : Prop) (stack : Option (List String)) : Conduct where
  toTerms := ordered path typed stack
  typed := typed
  loaded name l m := Answers name l m ∧ (typed → l.Honest name)
  runs := stack = none
  prompt := True
  knows := Contract.Known
  sound h := h.2.2.1
  names h _ := ordered_names h
  honest h := h.2
  work h hw _ hsound := ordered_work h hw hsound
  remember := by
    rintro m p index name c ⟨horderly, hregistry, hsound, hstack⟩ hpool hname ⟨hloaded, hhonest⟩
      hnone
    have hstrict : False → m.Nested path := False.elim
    rcases (order path False).remember ⟨horderly, hstrict⟩ hpool hname hloaded hnone with
      ⟨hinv, hext⟩
    refine ⟨⟨hinv.1, hregistry.of_eq (fun _ => rfl) fun _ => rfl, fun ht => ?_, hstack⟩, hext,
      fun _ => Grows.of_eq rfl⟩
    refine ⟨(hsound ht).classes, (hsound ht).arrays, ?_, (hsound ht).objects⟩
    intro r hr
    rcases List.mem_cons.mp hr with rfl | hr
    · exact hhonest ht
    · exact (hsound ht).resolved r hr
  knows_registered := id
  knows_later h hpool := h.1.pools hpool
  plain _ := trivial

theorem conduct_free : (conduct path typed stack).Free where
  prompt := trivial
  work := ordered_work
  names := ordered_names
  pools h hpool := h.1.pools hpool

/-!
# Requests that run no code
-/

section

variable {α : Type} {names : List String}

theorem no_runs : ¬ (conduct path typed (some names)).runs :=
  Option.some_ne_none names

theorem stacked_inv (hinv : (conduct path typed none).inv m) (hloading : m.loading = names) :
    (conduct path typed (some names)).inv m := by
  refine ⟨hinv.1, hinv.2.1, hinv.2.2.1, ?_⟩
  rintro names' heq
  cases heq
  exact hloading

theorem inv_of_stacked (h : (conduct path typed (some names)).inv m) :
    (conduct path typed none).inv m ∧ m.loading = names :=
  ⟨⟨h.1, h.2.1, h.2.2.1, nofun⟩, h.2.2.2 names rfl⟩

theorem ends_stacked {Q : α → Machine → Prop} {r : EStateM.Result Halt Machine α}
    (h : (conduct path typed none).Ends Q m r) (hloading : m.loading = names) :
    (conduct path typed (some names)).Ends Q m r :=
  h.restate (fun _ hinv hrel => ⟨stacked_inv hinv (hrel.1.loading.trans hloading), hrel⟩)
    fun _ _ => trivial

theorem ends_of_stacked {Q : α → Machine → Prop} {r : EStateM.Result Halt Machine α}
    (h : (conduct path typed (some names)).Ends Q m r) : (conduct path typed none).Ends Q m r :=
  h.restate (fun _ hinv hrel => ⟨(inv_of_stacked hinv).1, hrel⟩) fun _ _ => trivial

end

/-!
# Linking
-/

theorem readClassFile_cases (path : ClassPath) (name : String) (m : Machine) :
    (∃ file, path.Declares name file ∧ readClassFile path name m = .ok file m) ∨
      ∃ f, readClassFile path name m = .error (.fault f) m := by
  unfold readClassFile
  rw [get_bind]
  cases hbytes : path m.log name with
  | error f => exact .inr ⟨f, rfl⟩
  | ok bytes =>
      cases hfile : ClassFile.read bytes with
      | error e =>
          refine .inr ⟨.malformed e, ?_⟩
          show (liftM (ClassFile.read bytes) >>= _ : MachineM ClassFile) m = _
          rw [hfile]
          rfl
      | ok file =>
          have hread : (liftM (ClassFile.read bytes) : MachineM ClassFile) m = .ok file m := by
            rw [hfile]
            rfl
          by_cases hname : file.name = name
          · refine .inl ⟨file, ⟨m.log, bytes, hbytes, hfile, hname⟩, (bind_of_ok hread).trans ?_⟩
            simp only [hname, ne_eq, not_true, if_false]
            rfl
          · refine .inr ⟨.malformed (.misnamed name file.name), (bind_of_ok hread).trans ?_⟩
            simp only [ne_eq, hname, not_false_eq_true, if_true]
            rfl

section

variable (path typed stack)

def Registered (interface : Bool) (n : String) (c : Class) (m : Machine) : Prop :=
  c.name = n ∧ c.isInterface = interface ∧ ∃ s, m.standing? c.name = some (c, s)

theorem Registered.extends {interface : Bool} {n : String} (h : Registered interface n c m)
    (hext : Extends m m') : Registered interface n c m' := by
  obtain ⟨hname, hkind, s, hs⟩ := h
  exact ⟨hname, hkind, s, hext.standing hs⟩

theorem Registered.keep {interface : Bool} {n : String} (h : Registered interface n c m)
    (hrel : (conduct path typed stack).rel m m') : Registered interface n c m' :=
  h.extends hrel.1

theorem registered_interfaces {names : List String} {interfaces : List Class}
    (h : List.Forall₂ (fun n i => Registered true n i m) names interfaces) :
    names = interfaces.map Class.name ∧
      ∀ i ∈ interfaces, i.isInterface = true ∧ ∃ s, m.standing? i.name = some (i, s) := by
  induction h with
  | nil => exact ⟨rfl, nofun⟩
  | cons hi _ ih =>
      refine ⟨?_, List.forall_mem_cons.mpr ⟨hi.2, ih.2⟩⟩
      rw [List.map_cons, hi.1, ← ih.1]

theorem parent_talks (file : ClassFile) :
    (conduct path typed stack).scene.Talks (fun _ => True)
      (fun parent m => (parent = none ↔ file.name = rootName) ∧
        file.superName = parent.map Class.name ∧
          ∀ p, parent = some p → Registered false p.name p m)
      fun o => loadParent o.load file := by
  apply (Conduct.loadParent_talks _ file).mono fun _ _ _ => trivial
  rintro parent m _ ⟨hroot, hsome, hnone⟩
  cases parent with
  | none => exact ⟨hroot, hnone rfl, nofun⟩
  | some p =>
      obtain ⟨hclass, superName, hsuper, ⟨s, hs, -⟩, -⟩ := hsome p rfl
      have hname := standing?_name hs
      refine ⟨hroot, by rw [hsuper, Option.map_some, hname], ?_⟩
      rintro _ ⟨⟩
      exact ⟨rfl, hclass, s, hname ▸ hs⟩

theorem interface_talks (owner interfaceName : String) :
    (conduct path typed stack).scene.Talks (fun _ => True)
      (Registered true interfaceName)
      fun o => loadInterface o.load owner interfaceName := by
  apply (Conduct.loadInterface_talks _ owner interfaceName).mono fun _ _ _ => trivial
  rintro i m _ ⟨hinterface, ⟨s, hs, -⟩, -⟩
  have hname := standing?_name hs
  exact ⟨hname, hinterface, s, hname ▸ hs⟩

/-- A class is linked once its declarations are read and its supertypes are registered. -/
theorem links_of_registered {file : ClassFile} {d : Declarations} {parent : Option Class}
    {interfaces : List Class} (hdeclared : Declarations.ofFile file = .ok d)
    (hinterfaces : List.Forall₂ (fun n i => Registered true n i m) file.interfaces interfaces)
    (hroot : parent = none ↔ file.name = rootName)
    (hsuper : file.superName = parent.map Class.name)
    (hparent : ∀ p, parent = some p → Registered false p.name p m) :
    m.Links file ⟨d, parent, interfaces⟩ := by
  have hname : d.name = file.name := by
    obtain ⟨fields, methods, -, -, rfl⟩ := Declarations.ofFile_eq_ok hdeclared
    rfl
  refine ⟨hdeclared, ?_, hsuper, ?_, ?_, ?_⟩
  · show parent = none ↔ d.name = rootName
    rw [hname]
    exact hroot
  · exact (registered_interfaces hinterfaces).1
  · exact fun p hp => (hparent p hp).2
  · exact (registered_interfaces hinterfaces).2

theorem link_talks (file : ClassFile) :
    (conduct path typed stack).scene.Talks (fun _ => True) (fun c m => m.Links file c)
      fun o => link o.load file := by
  refine (parent_talks path typed stack file).bind fun parent => ?_
  have hparent {m m' : Machine} (hrel : (conduct path typed stack).rel m m')
      (h : (parent = none ↔ file.name = rootName) ∧ file.superName = parent.map Class.name ∧
        ∀ p, parent = some p → Registered false p.name p m) :
      (parent = none ↔ file.name = rootName) ∧ file.superName = parent.map Class.name ∧
        ∀ p, parent = some p → Registered false p.name p m' :=
    ⟨h.1, h.2.1, fun p hp => (h.2.2 p hp).keep path typed stack hrel⟩
  refine Talks.bind (Talks.mapM (R := fun n i => Registered true n i)
    (fun hrel h => h.keep path typed stack hrel) fun interfaceName _ => ?_) fun interfaces => ?_
  · apply ((interface_talks path typed stack file.name interfaceName).keep hparent).mono
    · exact fun _ _ h => ⟨trivial, h⟩
    · exact fun _ _ _ h => h
  refine Talks.bind (.liftMalformed (Declarations.ofFile_fails file) fun _ => trivial) fun d => ?_
  refine .pure fun m _ hlinked => ?_
  obtain ⟨hdeclared, hinterfaces, hroot, hsuper, hparents⟩ := hlinked
  exact links_of_registered hdeclared hinterfaces hroot hsuper hparents

/-!
# Constants
-/

theorem setConstant_sound (h : m.Sound) (hnames : (m.classes.map fun e => e.cls.name).Nodup)
    {s : ClassState} (hm : m.standing? c.name = some (c, s)) {position : Nat} {f : Field}
    (hf : c.staticFields[position]? = some f) (howner : f.owner = c.name) {value : Value}
    (hkind : f.type.kind? = some value.kind) : (m.setStaticAt f.owner position value).Sound := by
  rcases Option.map_eq_some_iff.mp hm with ⟨e, he, hcs⟩
  cases hcs
  have hhonest : f.Honest := (h.honest hm).staticFields f (List.mem_of_getElem? hf)
  apply h.setStaticAt
  intro e' he' hname g hg
  rw [eq_of_registration? hnames he he' (hname.trans howner), hf] at hg
  cases hg
  exact hhonest.holds hkind

theorem constants_talks (pool : Pool) (howner : ∀ f ∈ c.staticFields, f.owner = c.name) :
    (conduct path typed stack).scene.Talks (fun m => m.standing? c.name = some (c, .linked))
      (fun _ m => m.standing? c.name = some (c, .linked))
      fun o => assignConstants o.load pool 0 c.staticFields := by
  have hkept {m m' : Machine} (hrel : (conduct path typed stack).rel m m')
      (hm : m.standing? c.name = some (c, .linked)) : m'.standing? c.name = some (c, .linked) :=
    hrel.1.standing hm
  apply Conduct.assignConstants_talks _ hkept pool
  intro i f hf m value hinv hm hkind ht
  rw [Nat.zero_add]
  exact setConstant_sound (hinv.2.2.1 ht) (ordered_names hinv) hm hf
    (howner f (List.mem_of_getElem? hf)) hkind

end

end Bytecode
