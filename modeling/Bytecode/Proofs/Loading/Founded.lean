import Bytecode.Proofs.Class.Lookup

/-!
# The charter of the loader

Everything in a machine belongs to registered classes: objects, arrays, static fields, followed
class references and the frames of runs.  The loader keeps it so, together with the order of the
machine and of its registry.  Whatever it or a run looks for is then there, and the faults that
would report the contrary never arise.
-/

namespace Bytecode

open Machine

/-!
# Founded machines
-/

namespace Class

variable {c : Class} {name descriptor : String} {f : Field}

theorem chainStatic?_eq_some (h : c.chainStatic? name descriptor = some f) :
    ∃ d ∈ c.ancestors, f ∈ d.staticFields := by
  rcases List.exists_of_findSome?_eq_some h with ⟨d, hd, hfind⟩
  exact ⟨d, hd, List.mem_of_find?_eq_some hfind⟩

theorem staticField_eq_ok (h : c.staticField name descriptor = .ok f) :
    ∃ d, Relation.ReflTransGen Inherits c d ∧ f ∈ d.staticFields := by
  unfold staticField at h
  split at h
  next hchain =>
      cases h
      obtain ⟨d, hd, hf⟩ := chainStatic?_eq_some hchain
      exact ⟨d, Extends.inherits (mem_ancestors.mp hd), hf⟩
  next =>
      split at h
      next hinterface =>
          cases h
          rcases List.exists_of_findSome?_eq_some hinterface with ⟨i, hi, hchain⟩
          obtain ⟨d, hd, hf⟩ := chainStatic?_eq_some hchain
          exact ⟨d, (inherits_of_mem_superinterfaces hi).trans
            (Extends.inherits (mem_ancestors.mp hd)), hf⟩
      next => cases h

end Class

namespace Machine

variable {path : ClassPath} {m m' : Machine} {c : Class} {name : String}

theorem HasClass.standing? (h : m.HasClass c) : ∃ s, m.standing? c.name = some (c, s) := by
  obtain ⟨e, he, rfl⟩ := h.registration?
  exact ⟨e.state, Option.map_eq_some_iff.mpr ⟨e, he, rfl⟩⟩

theorem hasClass_of_standing? {s : ClassState} (h : m.standing? name = some (c, s)) :
    m.HasClass c := by
  have hname := standing?_name h
  subst hname
  exact class?_of_standing? h

theorem Extends.hasClass (h : Extends m m') (hc : m.HasClass c) : m'.HasClass c := by
  obtain ⟨s, hs⟩ := hc.standing?
  exact hasClass_of_standing? (h.standing hs)

/-- The machine is in order, and whatever it holds belongs to registered classes. -/
structure Founded (path : ClassPath) (m : Machine) : Prop where
  orderly : m.Orderly
  registry : m.Registry path
  grounded : m.Grounded

theorem Founded.empty : Machine.empty.Founded path :=
  ⟨Orderly.empty, Registry.empty, Grounded.empty⟩

namespace Founded

variable (h : m.Founded path)

include h

theorem consistent : m.Consistent path :=
  h.registry.consistent h.orderly

theorem works (hworks : Works m m') (hgrounded : m'.Grounded) : m'.Founded path :=
  ⟨h.orderly.works hworks, h.registry.of_eq hworks.standing? hworks.pool?, hgrounded⟩

theorem closed : m.Closed := by
  have hconsistent := h.consistent
  have hhierarchy := hconsistent.hierarchy
  constructor
  · intro c p hc hparent
    exact hconsistent.class? (hhierarchy.inherited (mem_registered hc) (.single (.inl hparent)))
  · intro c name descriptor method hc hmethod
    obtain ⟨d, hsupplies⟩ := hconsistent.supplied (mem_registered hc) hmethod
    exact ⟨d, hconsistent.class? hsupplies.registered,
      (Class.declaredMethod?_eq_some hsupplies.declared).1⟩
  · intro c name descriptor f hc hf
    obtain ⟨d, hinherits, hmem⟩ := Class.staticField_eq_ok hf
    have hd : m.HasClass d :=
      hconsistent.class? (hhierarchy.inherited (mem_registered hc) hinherits)
    obtain ⟨s, hs⟩ := hd.standing?
    obtain ⟨file, -, hlinks, -⟩ := h.registry d.name d s hs
    exact ⟨d, hd, hmem, hlinks.owner f hmem⟩
  · exact fun hc hmem => hconsistent.owner (mem_registered hc) hmem
  · intro c hc
    obtain ⟨s, hs⟩ := hc.standing?
    obtain ⟨file, -, -, hpool⟩ := h.registry c.name c s hs
    exact ⟨file.pool, hpool⟩

theorem rooted (hc : m.HasClass c) : ∃ root, m.standing? rootName = some root := by
  obtain ⟨root, hroot, -⟩ := h.consistent.assignmentOrder.top c (mem_registered hc)
  obtain ⟨e, he, -⟩ := Option.map_eq_some_iff.mp hroot
  exact ⟨(e.cls, e.state), Option.map_eq_some_iff.mpr ⟨e, he, rfl⟩⟩

end Founded

end Machine

/-!
# The charter
-/

def ClassPath.Gives (path : ClassPath) (f : Fault) : Prop :=
  ∃ log name, path log name = .error f

inductive Fault.RootMissing : Fault → Prop where
  | mk (name : String) : RootMissing (.illegal (.rootNotLoaded name))

/-- Requests that keep a machine founded.  If `rooted`, the root class is registered and never found
missing. -/
def founded (path : ClassPath) (rooted : Prop) : Charter where
  inv m := m.Founded path ∧ (rooted → ∃ root, m.standing? rootName = some root)
  rel m m' := Extends m m' ∧ Grows m m'
  err f := (f.Internal ∨ rooted ∧ f.RootMissing) → path.Gives f
  rel_refl m := ⟨Extends.refl m, Grows.of_eq rfl⟩
  rel_trans h h' := ⟨h.1.trans h'.1, h.2.trans h'.2⟩
  grounded := True
  loaded name l m := Answers name l m ∧ m.HasClass l.base
  closed h _ := h.1.closed
  ground h _ := h.1.grounded
  supplied h _ := h.2
  stays h _ hc := h.1.hasClass hc
  work := by
    rintro m m' ⟨hfounded, hroot⟩ hworks hgrows hgrounded
    refine ⟨⟨hfounded.works hworks (hgrounded trivial), fun hrooted => ?_⟩, hworks.extends, hgrows⟩
    obtain ⟨root, hroot⟩ := hroot hrooted
    exact ⟨root, (hworks.standing? rootName).trans hroot⟩
  remember := by
    rintro m p index name c ⟨⟨horderly, hregistry, hgrounded⟩, hroot⟩ hpool hname ⟨hanswer, hc⟩
      hnone
    have hstrict : False → m.Nested path := False.elim
    rcases (order path False).remember ⟨horderly, hstrict⟩ hpool hname hanswer hnone with
      ⟨hinv, hext⟩
    refine ⟨⟨⟨hinv.1, hregistry.of_eq (fun _ => rfl) fun _ => rfl, ?_⟩, hroot⟩, hext,
      Grows.of_eq rfl⟩
    refine ⟨hgrounded.statics, hgrounded.arrays, ?_, hgrounded.objects⟩
    exact List.forall_mem_cons.mpr ⟨hc, hgrounded.resolved⟩
  pools h hpool := h.1.pools hpool
  ordinary := by
    rintro f hf (hinternal | ⟨-, ⟨name⟩⟩)
    · exact absurd (.internal hinternal) hf
    · exact absurd (.rootNotLoaded name) hf
  plain h := absurd trivial h

variable {path : ClassPath} {rooted : Prop} {load₁ load₂ : Loader}
  {invoke₁ invoke₂ : Method → MachineM Unit} {m m' : Machine} {c : Class} {name : String}

/-- Where a class is registered, nothing is asked for before the root is registered. -/
theorem founded_rooted (h : m.Founded path) (hc : m.HasClass c) : (founded path rooted).inv m :=
  ⟨h, fun _ => h.rooted hc⟩

/-- A fault that may end a request where the root is registered may end any request. -/
theorem founded_err {f : Fault} (h : (founded path True).err f) : (founded path rooted).err f :=
  fun hf => h (hf.imp_right fun hroot => ⟨trivial, hroot.2⟩)

/-!
# Array classes and supertypes
-/

theorem arrayClass_founded (name : String) :
    (founded path rooted).Alike (fun _ => True) (fun a m => m.HasClass a.parent) (arrayClass name)
      (arrayClass name) := by
  intro m hinv _
  have hrefl := (founded path rooted).rel_refl m
  refine ⟨rfl, ?_⟩
  rcases arrayClass_outcome name m with ⟨e, harray, hok⟩ | ⟨hroot, hfault⟩ |
    ⟨f, helement, hfault⟩ | ⟨root, element, -, hroot, -, hok⟩
  · rw [hok]
    exact ⟨hinv, hrefl, hinv.1.grounded.arrays e (List.mem_of_find?_eq_some harray)⟩
  · rw [hfault]
    refine ⟨hinv, hrefl, ?_⟩
    rintro (hinternal | ⟨hrooted, -⟩)
    · cases hinternal
    · obtain ⟨root, hs⟩ := hinv.2 hrooted
      rw [class?_of_standing? hs] at hroot
      cases hroot
  · rw [hfault]
    have hordinary := (Descriptor.elementOf_fails name f helement).ordinary
    exact ⟨hinv, hrefl, (founded path rooted).ordinary hordinary⟩
  · have hclass : m.HasClass root := by
      obtain ⟨e, he, rfl⟩ := Option.map_eq_some_iff.mp hroot
      exact hasClass_of_standing? (Option.map_eq_some_iff.mpr ⟨e, he, rfl⟩)
    have hwork : Works m { m with arrays := m.arrays ++ [⟨⟨name, element, root⟩, none⟩] } :=
      ⟨rfl, rfl, rfl, rfl⟩
    have hground := hinv.1.grounded
    obtain ⟨hinv', hrel⟩ := (founded path rooted).work hinv hwork (Grows.of_eq rfl)
      fun _ => ⟨hground.statics, List.forall_mem_append.mpr
        ⟨hground.arrays, List.forall_mem_singleton.mpr hclass⟩,
        hground.resolved, hground.objects⟩
    rw [hok]
    exact ⟨hinv', hrel, hclass⟩

theorem loadSupertype_founded (h : (founded path rooted).Loaders load₁ load₂) (name : String) :
    (founded path rooted).Alike (fun _ => True) (fun c => Registered c.isInterface name c)
      (load₁.loadClass name) (load₂.loadClass name) := by
  refine (Charter.loadClass_alike h name).mono (fun _ _ _ => trivial) fun c m _ hloaded => ?_
  obtain ⟨⟨s, hs, -⟩, -⟩ := hloaded
  have hname := standing?_name hs
  exact ⟨hname, rfl, s, hname ▸ hs⟩

def Parents (file : ClassFile) (parent : Option Class) (m : Machine) : Prop :=
  (parent = none ↔ file.name = rootName) ∧ file.superName = parent.map Class.name ∧
    ∀ p, parent = some p → Registered false p.name p m

theorem loadParent_founded (h : (founded path rooted).Loaders load₁ load₂) (file : ClassFile) :
    (founded path rooted).Alike (fun _ => True) (Parents file) (loadParent load₁ file)
      (loadParent load₂ file) := by
  unfold loadParent
  cases hsuper : file.superName with
  | none =>
      refine .ite (fun _ => .fail_bind ((founded path rooted).ordinary nofun)) fun hroot =>
        .pure fun _ _ _ => ⟨by simpa using hroot, hsuper, nofun⟩
  | some superName =>
      refine .ite (fun _ => .fail_bind ((founded path rooted).ordinary nofun)) fun hroot =>
        (loadSupertype_founded h superName).bind fun parent => ?_
      refine .ite (fun _ => .fail_bind ((founded path rooted).ordinary nofun)) fun hclass =>
        .pure fun m _ hparent => ⟨by simpa using hroot, by simp [hsuper, hparent.1], ?_⟩
      rintro p heq
      cases heq
      exact ⟨rfl, by simpa using hclass, hparent.2.2⟩

theorem loadInterface_founded (h : (founded path rooted).Loaders load₁ load₂)
    (owner name : String) :
    (founded path rooted).Alike (fun _ => True) (Registered true name)
      (loadInterface load₁ owner name) (loadInterface load₂ owner name) := by
  refine (loadSupertype_founded h name).bind fun i =>
    .ite (fun _ => .fail_bind ((founded path rooted).ordinary nofun)) fun hinterface =>
      .pure fun m _ hi => ?_
  exact ⟨hi.1, by simpa using hinterface, hi.2.2⟩

theorem Terms.Alike.mapM_forall₂ {σ α β : Type} {T : Terms σ} {P : σ → Prop}
    {R : α → β → σ → Prop} {f g : α → EStateM Halt σ β} {items : List α}
    (hR : ∀ {a b s s'}, T.rel s s' → R a b s → R a b s')
    (h : ∀ a ∈ items, T.Alike P (fun b s => R a b s ∧ P s) (f a) (g a)) :
    T.Alike P (fun answers s => List.Forall₂ (fun a b => R a b s) items answers ∧ P s)
      (items.mapM f) (items.mapM g) := by
  induction items with
  | nil => exact .pure fun _ _ hs => ⟨.nil, hs⟩
  | cons a items ih =>
      rw [List.mapM_cons, List.mapM_cons]
      refine (h a List.mem_cons_self).bind fun b => ?_
      have hrest := (ih fun a' ha' => h a' (List.mem_cons_of_mem a ha')).keep (F := R a b) hR
      refine (hrest.mono (fun _ _ hs => ⟨hs.2, hs.1⟩) fun _ _ _ hq => hq).bind fun rest => ?_
      exact .pure fun _ _ hs => ⟨.cons hs.2 hs.1.1, hs.1.2⟩

theorem link_founded (h : (founded path rooted).Loaders load₁ load₂) (file : ClassFile) :
    (founded path rooted).Alike (fun _ => True) (fun c m => m.Links file c) (link load₁ file)
      (link load₂ file) := by
  refine (loadParent_founded h file).bind fun parent => ?_
  have hkeep {m m' : Machine} (hrel : (founded path rooted).rel m m') (hm : Parents file parent m) :
      Parents file parent m' :=
    ⟨hm.1, hm.2.1, fun p hp => (hm.2.2 p hp).extends hrel.1⟩
  have hstays {n : String} {i : Class} {m m' : Machine} (hrel : (founded path rooted).rel m m')
      (hi : Registered true n i m) : Registered true n i m' := hi.extends hrel.1
  refine (Terms.Alike.mapM_forall₂ (R := fun n i => Registered true n i) hstays
    fun n _ => ?_).bind fun interfaces => ?_
  · exact (loadInterface_founded h file.name n).along hkeep
  refine .bind (Q := fun d m => Declarations.ofFile file = .ok d ∧
    List.Forall₂ (fun n i => Registered true n i m) file.interfaces interfaces ∧
      Parents file parent m) ?_ fun d => .pure fun m _ hm => ?_
  · exact .liftMalformed
      (fun f hf => (founded path rooted).ordinary (Declarations.ofFile_fails file f hf).ordinary)
      fun _ _ hd hm => ⟨hd, hm⟩
  obtain ⟨hdeclared, hinterfaces, hroot, hsuper, hparents⟩ := hm
  exact links_of_registered hdeclared hinterfaces hroot hsuper hparents

/-!
# Stages of one load
-/

namespace Machine.Founded

variable (h : m.Founded path)

include h

theorem order : (order path False).inv m :=
  ⟨h.orderly, False.elim⟩

theorem begin (hnone : m.standing? name = none) : (m.begin name).Founded path := by
  obtain ⟨horderly, -⟩ := begin_inv h.order hnone False.elim
  refine ⟨horderly, h.registry.of_eq (fun _ => rfl) fun _ => rfl, ?_⟩
  exact h.grounded.congr rfl rfl rfl rfl

theorem finish (horderly : (m.finish name).Orderly) : (m.finish name).Founded path :=
  ⟨horderly, h.registry.of_eq (fun _ => rfl) fun _ => rfl, h.grounded.congr rfl rfl rfl rfl⟩

theorem setState {s : ClassState} (horderly : ((m.setState name s).finish name).Orderly) :
    ((m.setState name s).finish name).Founded path := by
  have hgrounded : (m.setState name s).Grounded :=
    h.grounded.modifyEntry name (fun _ => rfl) fun _ => rfl
  exact ⟨horderly, (h.registry.setState name s).of_eq (fun _ => rfl) fun _ => rfl,
    hgrounded.congr rfl rfl rfl rfl⟩

theorem enter {file : ClassFile} (hfile : path.Declares c.name file) (hlinks : m.Links file c)
    (hnone : m.standing? c.name = none) (hmem : c.name ∈ m.loading) :
    (m.enter c file.pool).Founded path := by
  have hpool := h.orderly.pool?_eq_none hnone
  have horder : (Bytecode.order path False).inv (m.enter c file.pool) :=
    enter_inv h.order hnone hpool hmem
  have hevolves : Evolves m (m.enter c file.pool) := .enter hnone hpool
  have hkept {d : Class} (hd : m.HasClass d) : (m.enter c file.pool).HasClass d := by
    obtain ⟨s, hs⟩ := hd.standing?
    obtain ⟨s', hs', -⟩ := hevolves.standing hs
    exact hasClass_of_standing? hs'
  refine ⟨horder.1, h.registry.enter hfile hlinks hnone hpool, ?_, ?_, ?_, ?_⟩
  · refine List.forall_mem_append.mpr ⟨h.grounded.statics, List.forall_mem_singleton.mpr ?_⟩
    exact List.length_map _
  · exact fun e he => hkept (h.grounded.arrays e he)
  · exact fun r hr => hkept (h.grounded.resolved r hr)
  · exact fun o ho => hkept (h.grounded.objects o ho)

end Machine.Founded

structure Entering (path : ClassPath) (m : Machine) (c : Class) (m' : Machine) : Prop where
  founded : m'.Founded path
  registers : Registers m c.name c m'
  grows : Grows m m'
  absent : m.standing? c.name = none
  free : c.name ∉ m.loading

namespace Entering

theorem hasClass (h : Entering path m c m') : m'.HasClass c :=
  hasClass_of_standing? h.registers.own

theorem inv (h : Entering path m c m') : (Bytecode.founded path rooted).inv m' :=
  founded_rooted h.founded h.hasClass

theorem next {m'' : Machine} (h : Entering path m c m') (hfounded : m''.Founded path)
    (hrel : (Bytecode.founded path True).rel m' m'') : Entering path m c m'' :=
  ⟨hfounded, h.registers.extends hrel.1, h.grows.trans hrel.2, h.absent, h.free⟩

theorem settled (rooted : Prop) (h : Entering path m c m') {s : ClassState} (hs : s ≠ .linked) :
    (Bytecode.founded path rooted).inv ((m'.setState c.name s).finish c.name) ∧
      (Bytecode.founded path rooted).rel m ((m'.setState c.name s).finish c.name) ∧
        ((m'.setState c.name s).finish c.name).standing? c.name = some (c, s) := by
  obtain ⟨horder, hext, hown⟩ :=
    h.registers.finish_settled h.free h.founded.order h.absent hs
  refine ⟨founded_rooted (h.founded.setState horder.1) (hasClass_of_standing? hown),
    ⟨hext, h.grows.trans (Grows.of_eq rfl)⟩, hown⟩

end Entering

/-- From `m'` on, both requests end the load of a class that was asked for in `m` in the same way,
and the machine is founded again. -/
def Completes (path : ClassPath) (rooted : Prop) (m : Machine) (name : String)
    (x y : MachineM Class) (m' : Machine) : Prop :=
  x m' = y m' ∧ (founded path rooted).Ends
    (fun c m'' => m''.standing? name = some (c, .initialized)) m (always x (·.finish name) m')

/-!
# Initialization
-/

section

variable (hload : (founded path True).Loaders load₁ load₂)
  (hinvoke : ∀ method, (founded path True).Alike ((founded path True).Calls method)
    (fun _ _ => True) (invoke₁ method) (invoke₂ method))

include hload hinvoke

theorem enterInitialized_founded (rooted : Prop) (h : Entering path m c m') :
    enterInitialized load₁ invoke₁ c m' = enterInitialized load₂ invoke₂ c m' ∧
      (founded path rooted).Ends (fun _ m'' => m''.standing? c.name = some (c, .initialized)) m
        (always (enterInitialized load₁ invoke₁ c) (·.finish c.name) m') := by
  obtain ⟨pool, hpool⟩ := h.founded.closed.pool h.hasClass
  obtain ⟨heq, hends⟩ := runInitializer_alike (fun _ => ⟨hload, hinvoke⟩) m' h.inv
    ⟨hpool, fun _ => h.hasClass⟩
  refine ⟨by simp only [enterInitialized, heq], ?_⟩
  unfold always enterInitialized
  cases hrun : runInitializer load₁ invoke₁ c m' with
  | ok a m'' =>
      rw [hrun] at hends
      exact (h.next hends.1.1 hends.2.1).settled rooted (by decide)
  | error e m'' =>
      rw [hrun] at hends
      cases e with
      | outOfFuel => trivial
      | fault f =>
          obtain ⟨hinv, hrel, -⟩ :=
            (h.next hends.1.1 hends.2.1).settled rooted (s := .erroneous) (by decide)
          exact ⟨hinv, hrel, founded_err hends.2.2⟩

theorem settle_founded (rooted : Prop) (hprompt : Prompt load₁) (h : Entering path m c m') :
    Completes path rooted m c.name (settle load₁ invoke₁ c) (settle load₂ invoke₂ c) m' := by
  cases hclass : m'.standing? classClassName with
  | none =>
      obtain ⟨heq, hends⟩ := enterInitialized_founded hload hinvoke rooted h
      unfold Completes always
      rw [settle_without hclass, settle_without hclass]
      exact ⟨bind_congr_at _ heq, always_bind_pure hends⟩
  | some p =>
      obtain ⟨hobject, hmade⟩ := Charter.classObject_same
        (Charter.loadClass_has hload classClassName) c.name m' h.inv trivial
      unfold Completes always
      rw [settle_classObject hclass, settle_classObject hclass]
      rcases classObject_prompt hprompt hclass c.name with hout | ⟨hfailed, hout⟩ |
        ⟨a, m'', hout, -, -⟩
      · rw [bind_of_error hout, bind_of_error (hobject.symm.trans hout)]
        exact ⟨rfl, trivial⟩
      · rw [bind_of_error hout, bind_of_error (hobject.symm.trans hout)]
        obtain ⟨horder, hext⟩ := h.registers.finish_linked h.founded.order
          ⟨p.1, by rw [hclass, ← hfailed]⟩
        refine ⟨rfl, founded_rooted (h.founded.finish horder.1) h.hasClass,
          ⟨hext, h.grows.trans (Grows.of_eq rfl)⟩, (founded path rooted).ordinary nofun⟩
      · rw [bind_of_ok hout, bind_of_ok (hobject.symm.trans hout)]
        rw [hout] at hmade
        obtain ⟨heq, hends⟩ := enterInitialized_founded hload hinvoke rooted
          (h.next hmade.1.1 hmade.2.1)
        exact ⟨bind_congr_at _ heq, always_bind_pure hends⟩

end

/-!
# Whole loads
-/

theorem readClassFile_founded (rooted : Prop) (name : String) :
    (founded path rooted).Alike (fun _ => True) (fun file _ => path.Declares name file)
      (readClassFile path name) (readClassFile path name) := by
  refine .get_bind fun m _ => ?_
  refine .bind (Q := fun bytes _ => path m.log name = .ok bytes) ?_ fun bytes => ?_
  · exact .lift (fun f hf _ => ⟨m.log, name, hf⟩) fun bytes _ hbytes _ => hbytes
  refine .bind (Q := fun file _ => path m.log name = .ok bytes ∧ ClassFile.read bytes = .ok file)
    ?_ fun file => ?_
  · refine .liftMalformed (fun f hf => (founded path rooted).ordinary ?_)
      fun file _ hfile hbytes => ⟨hbytes, hfile⟩
    exact (ClassFile.read_fails bytes f hf).ordinary
  dsimp only
  split
  next => exact .fail_bind ((founded path rooted).ordinary nofun)
  next hname => exact .pure fun _ _ hs => ⟨m.log, bytes, hs.1, hs.2, not_not.mp hname⟩

theorem founded_absent (hinv : (founded path rooted).inv m) (hnone : m.standing? name = none)
    (hinv' : (founded path rooted).inv m') (hrel : (founded path rooted).rel (m.begin name) m') :
    (founded path rooted).inv (m'.finish name) ∧ (founded path rooted).rel m (m'.finish name) := by
  obtain ⟨horder, hext⟩ := finish_absent hinv'.1.order hrel.1 hnone
  refine ⟨⟨hinv'.1.finish horder.1, fun hrooted => ?_⟩, hext, hrel.2⟩
  obtain ⟨root, hroot⟩ := hinv.2 hrooted
  exact ⟨root, hext.standing hroot⟩

theorem Completes.of_error {x y : MachineM Class} {e : Halt}
    (hinv : (founded path rooted).inv m) (hnone : m.standing? name = none)
    (hx : x (m.begin name) = .error e m') (hy : y (m.begin name) = .error e m')
    (hfault : ∀ f, e = .fault f → (founded path rooted).inv m' ∧
      (founded path rooted).rel (m.begin name) m' ∧ (founded path rooted).err f) :
    Completes path rooted m name x y (m.begin name) := by
  unfold Completes always
  rw [hx, hy]
  refine ⟨rfl, ?_⟩
  cases e with
  | outOfFuel => trivial
  | fault f =>
      obtain ⟨hinv', hrel, herr⟩ := hfault f rfl
      obtain ⟨hend, hrel'⟩ := founded_absent hinv hnone hinv' hrel
      exact ⟨hend, hrel', herr⟩

section

variable (hload : (founded path rooted).Loaders load₁ load₂) (hinv : (founded path rooted).inv m)
  (hnone : m.standing? name = none)

include hload hinv hnone

theorem linked_new {file : ClassFile} {m₁ m₂ : Machine}
    (hread : readClassFile path name (m.begin name) = .ok file m₁)
    (hlink : link load₁ file m₁ = .ok c m₂) :
    c.name = name ∧ path.Declares name file ∧ m₂.Links file c ∧
      (founded path rooted).inv m₂ ∧ (founded path rooted).rel (m.begin name) m₂ ∧
        m₂.standing? name = none := by
  have hreads := (readClassFile_founded rooted name (m.begin name)
    ⟨hinv.1.begin hnone, hinv.2⟩ trivial).2
  rw [hread] at hreads
  obtain ⟨hinv₁, hrel₁, hfile⟩ := hreads
  have hlinks := (link_founded hload file m₁ hinv₁ trivial).2
  rw [hlink] at hlinks
  obtain ⟨hinv₂, hrel₂, hlinks⟩ := hlinks
  have hrel := (founded path rooted).rel_trans hrel₁ hrel₂
  exact ⟨hfile.name_eq hlinks.declarations, hfile, hlinks, hinv₂, hrel,
    hrel.1.absent List.mem_cons_self hnone⟩

theorem registerClass_new {file : ClassFile} {m₁ m₂ : Machine}
    (hread : readClassFile path name (m.begin name) = .ok file m₁)
    (hlink : link load₁ file m₁ = .ok c m₂) :
    ((m₂.registerPool name file.pool).registerClass c).1 = true := by
  obtain ⟨rfl, -, -, hinv₂, -, hnone₂⟩ := linked_new hload hinv hnone hread hlink
  rw [register_eq_enter hnone₂ (hinv₂.1.orderly.pool?_eq_none hnone₂)]

theorem define_founded (hrooted : (founded path True).Loaders load₁ load₂)
    (hinvoke : ∀ method, (founded path True).Alike ((founded path True).Calls method)
      (fun _ _ => True) (invoke₁ method) (invoke₂ method))
    (hprompt : Prompt load₁) (hfree : name ∉ m.loading) :
    Completes path rooted m name (define path load₁ invoke₁ name) (define path load₂ invoke₂ name)
      (m.begin name) := by
  have hreads := (readClassFile_founded rooted name (m.begin name)
    ⟨hinv.1.begin hnone, hinv.2⟩ trivial).2
  -- until the class is registered a failure only takes its name off the list of those being loaded
  cases hread : readClassFile path name (m.begin name) with
  | error e m₁ =>
      rw [hread] at hreads
      refine .of_error hinv hnone (bind_of_error hread) (bind_of_error hread) ?_
      rintro f rfl
      exact hreads
  | ok file m₁ =>
      rw [hread] at hreads
      obtain ⟨hinv₁, hrel₁, -⟩ := hreads
      obtain ⟨heq, hlinks⟩ := link_founded hload file m₁ hinv₁ trivial
      cases hlink : link load₁ file m₁ with
      | error e m₂ =>
          rw [hlink] at hlinks
          refine .of_error hinv hnone ((bind_of_ok hread).trans (bind_of_error hlink))
            ((bind_of_ok hread).trans (bind_of_error (heq.symm.trans hlink))) ?_
          rintro f rfl
          exact ⟨hlinks.1, (founded path rooted).rel_trans hrel₁ hlinks.2.1, hlinks.2.2⟩
      | ok c m₂ =>
          obtain ⟨rfl, hfile, hlinked, hinv₂, hrel, hnone₂⟩ :=
            linked_new hload hinv hnone hread hlink
          have hpool₂ := hinv₂.1.orderly.pool?_eq_none hnone₂
          have hmem : c.name ∈ m₂.loading := by
            rw [hrel.1.loading]
            exact List.mem_cons_self
          have hentering : Entering path m c (m₂.enter c file.pool) :=
            ⟨hinv₂.1.enter hfile hlinked hnone₂ hmem,
              .enter hrel.1 hnone₂ hpool₂ hfree, hrel.2, hnone, hfree⟩
          unfold Completes always
          rw [define_eq_settle hread hlink hnone₂ hpool₂,
            define_eq_settle hread (heq.symm.trans hlink) hnone₂ hpool₂]
          exact settle_founded hrooted hinvoke rooted hprompt hentering

end

/-- One load keeps a machine founded if the requests that arise on the way do. -/
theorem loadWith_founded (hload : (founded path rooted).Loaders load₁ load₂)
    (hrooted : (founded path True).Loaders load₁ load₂) (hprompt : Prompt load₁)
    (hinvoke : ∀ method, (founded path True).Alike ((founded path True).Calls method)
      (fun _ _ => True) (invoke₁ method) (invoke₂ method)) :
    (founded path rooted).Loaders (loadWith path load₁ invoke₁) (loadWith path load₂ invoke₂) := by
  intro name
  cases harray : Descriptor.isArray name with
  | true =>
      rw [loadWith_array harray, loadWith_array harray]
      exact (arrayClass_founded name).bind fun a => .pure fun _ _ ha => ⟨trivial, ha⟩
  | false =>
      intro m hinv _
      have hrefl := (founded path rooted).rel_refl m
      cases hstanding : m.standing? name with
      | some p =>
          rw [loadWith_registered harray hstanding, loadWith_registered harray hstanding]
          refine ⟨rfl, ?_⟩
          split
          next => exact ⟨hinv, hrefl, (founded path rooted).ordinary nofun⟩
          next hs => exact ⟨hinv, hrefl, ⟨p.2, hstanding, hs⟩, hasClass_of_standing? hstanding⟩
      | none =>
          by_cases hmem : name ∈ m.loading
          · rw [loadWith_circular harray hstanding hmem, loadWith_circular harray hstanding hmem]
            refine ⟨rfl, hinv, hrefl, ?_⟩
            -- a circularity is neither an internal fault nor a missing root
            rintro (hinternal | ⟨-, hroot⟩)
            · cases hinternal
            · cases hroot
          · obtain ⟨heq, hends⟩ :=
              define_founded hload hinv hstanding hrooted hinvoke hprompt hmem
            rw [loadWith_fresh harray hstanding hmem, loadWith_fresh harray hstanding hmem, ← heq]
            refine ⟨rfl, ?_⟩
            unfold always at hends
            cases hdefine : define path load₁ invoke₁ name (m.begin name) with
            | ok c m' =>
                rw [hdefine] at hends
                exact ⟨hends.1, hends.2.1, ⟨.initialized, hends.2.2, nofun⟩,
                  hasClass_of_standing? hends.2.2⟩
            | error e m' =>
                rw [hdefine] at hends
                cases e with
                | fault f => exact hends
                | outOfFuel => trivial

end Bytecode
