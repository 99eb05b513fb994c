import Bytecode.Proofs.History.Heap
import Bytecode.Proofs.History.Registry

/-!
# Assignability of classes

The superclass chain and the superinterfaces of a class are what is reached from it by steps to
direct supertypes.  Over classes that are closed under such steps, as the registered ones are at
every event of a history, assignability is an order with the root class on top.
-/

namespace Bytecode
namespace Class

/-!
# Steps to supertypes
-/

def Extends (c d : Class) : Prop := c.parent = some d

/-- The second class is the superclass or an interface of the first. -/
def Inherits (c d : Class) : Prop := c.Extends d ∨ d ∈ c.interfaces

variable {a b c d i : Class}

theorem inherits_wf : WellFounded fun d c : Class => c.Inherits d :=
  Subrelation.wf Class.sizeOf_lt (measure sizeOf).wf

theorem Extends.inherits (h : Relation.ReflTransGen Extends c d) :
    Relation.ReflTransGen Inherits c d :=
  h.lift id fun _ _ => .inl

theorem sizeOf_le (h : Relation.ReflTransGen Inherits c d) : c = d ∨ sizeOf d < sizeOf c := by
  induction h with
  | refl => exact .inl rfl
  | tail _ hstep ih =>
      apply Or.inr
      rcases ih with rfl | hlt
      · exact sizeOf_lt hstep
      · exact (sizeOf_lt hstep).trans hlt

/-!
# Superclasses
-/

theorem ancestors_eq (c : Class) :
    c.ancestors = c :: (c.parent.map ancestors).getD [] := by
  cases c with
  | mk declarations parent interfaces => cases parent <;> rfl

theorem mem_ancestors_self (c : Class) : c ∈ c.ancestors := by
  rw [ancestors_eq]
  exact List.mem_cons_self

theorem ancestors_of_extends (h : c.Extends d) : c.ancestors = c :: d.ancestors := by
  rw [ancestors_eq, show c.parent = some d from h]
  rfl

theorem mem_ancestors : d ∈ c.ancestors ↔ Relation.ReflTransGen Extends c d := by
  constructor
  · -- the chain gets shorter with each superclass, so the induction is on what is above the class
    intro h
    induction c using inherits_wf.induction with
    | _ c ih =>
        cases hparent : c.parent with
        | none =>
            rw [ancestors_eq, hparent] at h
            rw [List.mem_singleton.mp h]
        | some p =>
            rw [ancestors_of_extends hparent] at h
            rcases List.mem_cons.mp h with rfl | h
            · exact .refl
            · exact .head hparent (ih p (.inl hparent) h)
  · intro h
    induction h using Relation.ReflTransGen.head_induction_on with
    | refl => exact mem_ancestors_self d
    | head hstep _ ih =>
        rw [ancestors_of_extends hstep]
        exact List.mem_cons_of_mem _ ih

theorem exists_top (c : Class) : ∃ top ∈ c.ancestors, top.parent = none := by
  induction c using inherits_wf.induction with
  | _ c ih =>
      cases hparent : c.parent with
      | none => exact ⟨c, mem_ancestors_self c, hparent⟩
      | some p =>
          rcases ih p (.inl hparent) with ⟨top, htop, hnone⟩
          rw [ancestors_of_extends hparent]
          exact ⟨top, List.mem_cons_of_mem c htop, hnone⟩

/-!
# Superinterfaces
-/

theorem mem_withSuperinterfaces {classes : List Class} :
    i ∈ withSuperinterfaces classes ↔ i ∈ classes ∨ ∃ d ∈ classes, i ∈ d.superinterfaces := by
  induction classes with
  | nil => simp [withSuperinterfaces]
  | cons d rest ih =>
      simp only [withSuperinterfaces, List.mem_cons, List.mem_append, ih, or_and_right, exists_or,
        exists_eq_left]
      tauto

theorem mem_superinterfaces_step :
    i ∈ c.superinterfaces ↔ i ∈ c.interfaces ∨ ∃ d, c.Inherits d ∧ i ∈ d.superinterfaces := by
  cases c with
  | mk declarations parent interfaces =>
      have hparent : i ∈ parentSuperinterfaces parent ↔
          ∃ d, parent = some d ∧ i ∈ d.superinterfaces := by
        cases parent with
        | none => simp [parentSuperinterfaces]
        | some p => simp [parentSuperinterfaces]
      simp only [superinterfaces, List.mem_append, mem_withSuperinterfaces, hparent, Inherits,
        Extends, Class.parent, Class.interfaces, or_and_right, exists_or, or_assoc]
      rw [or_comm (a := ∃ d, parent = some d ∧ _)]

theorem mem_superinterfaces :
    i ∈ c.superinterfaces ↔ ∃ d, Relation.ReflTransGen Inherits c d ∧ i ∈ d.interfaces := by
  constructor
  · intro h
    induction c using inherits_wf.induction with
    | _ c ih =>
        rcases mem_superinterfaces_step.mp h with h | ⟨d, hstep, h⟩
        · exact ⟨c, .refl, h⟩
        · rcases ih d hstep h with ⟨e, habove, hi⟩
          exact ⟨e, .head hstep habove, hi⟩
  · rintro ⟨d, habove, hi⟩
    induction habove using Relation.ReflTransGen.head_induction_on with
    | refl => exact mem_superinterfaces_step.mpr (.inl hi)
    | head hstep _ ih => exact mem_superinterfaces_step.mpr (.inr ⟨_, hstep, ih⟩)

theorem inherits_of_mem_superinterfaces (h : i ∈ c.superinterfaces) :
    Relation.ReflTransGen Inherits c i := by
  rcases mem_superinterfaces.mp h with ⟨d, habove, hi⟩
  exact habove.tail (.inr hi)

end Class

/-!
# Closed collections of classes
-/

/-- Classes told apart by their names, and closed under supertypes: superclasses are no interfaces,
and only the root class has none. -/
structure Hierarchy (classes : Set Class) : Prop where
  named : ∀ {a b}, a ∈ classes → b ∈ classes → a.name = b.name → a = b
  root : ∀ {c}, c ∈ classes → (c.parent = none ↔ c.name = rootName)
  extended : ∀ {c d}, c ∈ classes → c.Extends d → d ∈ classes ∧ d.isInterface = false
  interfaces : ∀ {c i}, c ∈ classes → i ∈ c.interfaces → i ∈ classes ∧ i.isInterface = true

namespace Hierarchy

open Bytecode.Class

variable {classes : Set Class} {a b c d root : Class}

theorem inherited (h : Hierarchy classes) (hc : c ∈ classes)
    (habove : Relation.ReflTransGen Inherits c d) : d ∈ classes := by
  induction habove with
  | refl => exact hc
  | tail _ hstep ih =>
      rcases hstep with hextends | hinterface
      · exact (h.extended ih hextends).1
      · exact (h.interfaces ih hinterface).1

theorem mem_of_ancestors (h : Hierarchy classes) (hc : c ∈ classes) (hd : d ∈ c.ancestors) :
    d ∈ classes :=
  h.inherited hc (Extends.inherits (mem_ancestors.mp hd))

theorem mem_of_superinterfaces (h : Hierarchy classes) (hc : c ∈ classes)
    (hd : d ∈ c.superinterfaces) : d ∈ classes :=
  h.inherited hc (inherits_of_mem_superinterfaces hd)

theorem mem_of_above (h : Hierarchy classes) (hc : c ∈ classes)
    (hd : d ∈ c.ancestors ∨ d ∈ c.superinterfaces) : d ∈ classes := by
  rcases hd with hd | hd
  · exact h.mem_of_ancestors hc hd
  · exact h.mem_of_superinterfaces hc hd

theorem isInterface_superclass (h : Hierarchy classes) (hc : c ∈ classes) (hd : d ∈ c.ancestors) :
    d = c ∨ d.isInterface = false := by
  rcases (mem_ancestors.mp hd).cases_tail with rfl | ⟨e, habove, hstep⟩
  · exact .inl rfl
  · exact .inr (h.extended (h.inherited hc (Extends.inherits habove)) hstep).2

theorem looksLike_refl (c : Class) : c.looksLike c = true := by
  unfold looksLike implements
  cases c.isInterface <;> simp

theorem looksLike_class (h : Hierarchy classes) (hc : c ∈ classes) (hd : d ∈ classes)
    (hclass : d.isInterface = false) : c.looksLike d = true ↔ d ∈ c.ancestors := by
  have hnamed : (∃ e ∈ c.ancestors, e.name = d.name) ↔ d ∈ c.ancestors := by
    constructor
    · rintro ⟨e, he, hname⟩
      rwa [← h.named (h.mem_of_ancestors hc he) hd hname]
    · exact fun hmem => ⟨d, hmem, rfl⟩
  rw [← hnamed, ancestors_eq]
  simp [looksLike, hclass, isSubclassOf, superclasses, ancestors_eq c]

theorem looksLike_interface (h : Hierarchy classes) (hc : c ∈ classes) (hd : d ∈ classes)
    (hinterface : d.isInterface = true) :
    c.looksLike d = true ↔ d = c ∨ d ∈ c.superinterfaces := by
  simp only [looksLike, hinterface, if_true, implements, Bool.or_eq_true, List.any_eq_true,
    beq_iff_eq]
  constructor
  · rintro (hname | ⟨i, hi, hname⟩)
    · exact .inl (h.named hd hc hname.symm)
    · rw [← h.named (h.mem_of_superinterfaces hc hi) hd hname]
      exact .inr hi
  · rintro (rfl | hmem)
    · exact .inl rfl
    · exact .inr ⟨d, hmem, rfl⟩

/-- A class looks like its superclasses, itself included, and like its superinterfaces. -/
theorem looksLike_iff (h : Hierarchy classes) (hc : c ∈ classes) (hd : d ∈ classes) :
    c.looksLike d = true ↔ d ∈ c.ancestors ∨ d ∈ c.superinterfaces := by
  constructor
  · intro hlooks
    cases hkind : d.isInterface with
    | false => exact .inl ((h.looksLike_class hc hd hkind).mp hlooks)
    | true =>
        rcases (h.looksLike_interface hc hd hkind).mp hlooks with rfl | hmem
        · exact .inl (mem_ancestors_self d)
        · exact .inr hmem
  · rintro (hmem | hmem)
    · rcases h.isInterface_superclass hc hmem with rfl | hkind
      · exact looksLike_refl d
      · exact (h.looksLike_class hc hd hkind).mpr hmem
    · rcases mem_superinterfaces.mp hmem with ⟨e, habove, hd'⟩
      have hkind := (h.interfaces (h.inherited hc habove) hd').2
      exact (h.looksLike_interface hc hd hkind).mpr (.inr hmem)

theorem inherits_of_looksLike (h : Hierarchy classes) (hc : c ∈ classes) (hd : d ∈ classes)
    (hlooks : c.looksLike d = true) : Relation.ReflTransGen Inherits c d := by
  rcases (h.looksLike_iff hc hd).mp hlooks with hmem | hmem
  · exact Extends.inherits (mem_ancestors.mp hmem)
  · exact inherits_of_mem_superinterfaces hmem

theorem looksLike_of_inherits (h : Hierarchy classes) (hc : c ∈ classes)
    (habove : Relation.ReflTransGen Inherits c d) (hinterface : d.isInterface = true) :
    c.looksLike d = true := by
  apply (h.looksLike_interface hc (h.inherited hc habove) hinterface).mpr
  -- the last step leads to an interface, and superclasses are none
  rcases habove.cases_tail with rfl | ⟨e, hbefore, hextends | hmem⟩
  · exact .inl rfl
  · have hclass := (h.extended (h.inherited hc hbefore) hextends).2
    rw [hinterface] at hclass
    cases hclass
  · exact .inr (mem_superinterfaces.mpr ⟨e, hbefore, hmem⟩)

/-!
# The order
-/

theorem looksLike_antisymm (h : Hierarchy classes) (ha : a ∈ classes) (hb : b ∈ classes)
    (hab : a.looksLike b = true) (hba : b.looksLike a = true) : a = b := by
  rcases sizeOf_le (h.inherits_of_looksLike ha hb hab) with heq | hlt
  · exact heq
  · rcases sizeOf_le (h.inherits_of_looksLike hb ha hba) with heq | hlt'
    · exact heq.symm
    · exact absurd hlt' (Nat.lt_asymm hlt)

theorem looksLike_root (h : Hierarchy classes) (hc : c ∈ classes) :
    ∃ root ∈ classes, root.name = rootName ∧ c.looksLike root = true := by
  rcases exists_top c with ⟨top, htop, hnone⟩
  have hmem := h.mem_of_ancestors hc htop
  exact ⟨top, hmem, (h.root hmem).mp hnone, (h.looksLike_iff hc hmem).mpr (.inl htop)⟩

theorem looksLike_trans (h : Hierarchy classes) (ha : a ∈ classes) (hb : b ∈ classes)
    (hc : c ∈ classes) (hab : a.looksLike b = true) (hbc : b.looksLike c = true)
    (hexcept : ¬ (b.isInterface = true ∧ c.isInterface = false ∧ c.name ≠ rootName)) :
    a.looksLike c = true := by
  -- an interface may be reached by any steps, a class by steps to superclasses only
  cases hkind : c.isInterface with
  | true =>
      have habove := (h.inherits_of_looksLike ha hb hab).trans (h.inherits_of_looksLike hb hc hbc)
      exact h.looksLike_of_inherits ha habove hkind
  | false =>
      cases hmiddle : b.isInterface with
      | false =>
          apply (h.looksLike_class ha hc hkind).mpr
          have hfirst := mem_ancestors.mp ((h.looksLike_class ha hb hmiddle).mp hab)
          have hsecond := mem_ancestors.mp ((h.looksLike_class hb hc hkind).mp hbc)
          exact mem_ancestors.mpr (hfirst.trans hsecond)
      | true =>
          have hname : c.name = rootName := by
            by_contra hne
            exact hexcept ⟨hmiddle, hkind, hne⟩
          rcases h.looksLike_root ha with ⟨root, hroot, hrootName, hlooks⟩
          rwa [h.named hc hroot (hname.trans hrootName.symm)]

end Hierarchy

/-!
# Registered classes
-/

open Machine Scene

def Machine.registered (m : Machine) : Set Class :=
  { c | ∃ e ∈ m.classes, e.cls = c }

theorem Machine.mem_registered {m : Machine} {name : String} {c : Class}
    (h : m.class? name = some c) : c ∈ m.registered := by
  rcases Option.map_eq_some_iff.mp h with ⟨e, he, rfl⟩
  exact ⟨e, List.mem_of_find?_eq_some he, rfl⟩

theorem Machine.Consistent.class? {path : ClassPath} {m : Machine} (h : m.Consistent path)
    {c : Class} (hc : c ∈ m.registered) : m.class? c.name = some c := by
  rcases hc with ⟨e, he, rfl⟩
  exact Option.map_eq_some_iff.mpr ⟨e, h.found e he, rfl⟩

theorem Machine.Consistent.hierarchy {path : ClassPath} {m : Machine} (h : m.Consistent path) :
    Hierarchy m.registered := by
  constructor
  · intro a b ha hb hname
    have hclass := h.class? ha
    rw [hname, h.class? hb] at hclass
    exact (Option.some.inj hclass).symm
  · rintro c ⟨e, he, rfl⟩
    exact h.root e he
  · rintro c d ⟨e, he, rfl⟩ hextends
    rcases h.parent e he d hextends with ⟨hclass, hd⟩
    exact ⟨mem_registered hd, hclass⟩
  · rintro c i ⟨e, he, rfl⟩ hi
    rcases h.interfaces e he i hi with ⟨hinterface, hd⟩
    exact ⟨mem_registered hd, hinterface⟩

/-- Assignability among the registered classes of a machine is an order as far as it can be: what an
interface looks like that is a class other than the root need not be a superclass of those that
implement the interface. -/
structure Machine.AssignmentOrder (m : Machine) : Prop where
  refl : ∀ a ∈ m.registered, a.looksLike a = true
  antisymm : ∀ a ∈ m.registered, ∀ b ∈ m.registered,
    a.looksLike b = true → b.looksLike a = true → a = b
  top : ∀ a ∈ m.registered, ∃ root, m.class? rootName = some root ∧ a.looksLike root = true
  trans : ∀ a ∈ m.registered, ∀ b ∈ m.registered, ∀ c ∈ m.registered,
    a.looksLike b = true → b.looksLike c = true →
      ¬ (b.isInterface = true ∧ c.isInterface = false ∧ c.name ≠ rootName) → a.looksLike c = true

theorem Machine.Consistent.assignmentOrder {path : ClassPath} {m : Machine}
    (h : m.Consistent path) : m.AssignmentOrder := by
  have hhierarchy := h.hierarchy
  constructor
  · exact fun a _ => Hierarchy.looksLike_refl a
  · exact fun a ha b hb => hhierarchy.looksLike_antisymm ha hb
  · intro a ha
    rcases hhierarchy.looksLike_root ha with ⟨root, hroot, hname, hlooks⟩
    have hclass := h.class? hroot
    rw [hname] at hclass
    exact ⟨root, hclass, hlooks⟩
  · exact fun a ha b hb c hc => hhierarchy.looksLike_trans ha hb hc

theorem History.consistent {host : Host} {events : List Event} (hnatives : host.natives.Polite)
    (h : History host Works events) {e : Event} (he : e ∈ events) :
    e.machine.Consistent host.path := by
  have hinv := (h.chronicle hnatives work_keeps).inv e he
  exact hinv.2.1.consistent hinv.1

/-- At every event of a history, assignability among the registered classes is an order. -/
theorem History.assignability_ordered {host : Host} {events : List Event}
    (hnatives : host.natives.Polite) (h : History host Works events) :
    ∀ e ∈ events, e.machine.AssignmentOrder :=
  fun _ he => (h.consistent hnatives he).assignmentOrder

/-!
# A class, its subclass and an interface
-/

namespace Sample

/-- Bytes of a type with the given superclass, and an interface if there is one.  Further constants
stand from index eight on. -/
def typeFile (access : UInt16) (name superName : String) (interface : Option String)
    (constants : List Constant) (methods : List MemberLayout) : List UInt8 :=
  ClassLayout.bytes
    { minor := 0, major := 52
      constants := [.utf8 name, .classRef 1, .utf8 superName, .classRef 3, .utf8 "Code",
        .utf8 (interface.getD name), .classRef 6] ++ constants
      access
      thisClass := 2
      superClass := 4
      interfaces := if interface.isSome then [7] else []
      fields := [], methods, attributes := [] }

end Sample

theorem Rests.next {host : Host} {writes : Machine → Machine → Prop} {events : List Event}
    {m : Machine} (h : Rests host writes events m) (r : Request) (fuel : Nat)
    (hend : TypedHeap.ended (r.run host fuel m) = true) :
    Rests host writes (events ++ [.rested (endOf (r.run host fuel) m)])
      (endOf (r.run host fuel) m) := by
  have hrests := Rests.request h (.start fuel (.request r) m) (TypedHeap.finishes_of_ended hend)
  rwa [List.append_nil] at hrests

theorem Rests.history {host : Host} {writes : Machine → Machine → Prop} {events : List Event}
    {m : Machine} (h : Rests host writes events m) : History host writes events :=
  ⟨0, .bootstrap, m, .going ∅, events, [], h, .start 0 _ _, (List.append_nil events).symm⟩

namespace Layers

def size : List Constant × MemberLayout :=
  ([.utf8 "size", .utf8 "()I"], ⟨0x401, 8, 9, []⟩)

/-- An interface `I` that declares a method, a class `A` that implements it and declares none, and a
subclass `B` of `A` that declares the method again. -/
def host : Host :=
  Sample.host
    [("I", Sample.typeFile 0x601 "I" rootName none size.1 [size.2]),
      ("A", Sample.typeFile 0x421 "A" rootName (some "I") [] []),
      ("B", Sample.typeFile 0x421 "B" "A" none size.1 [size.2])]

def machine : Machine := endOf ((Request.load "B").run host 8) Machine.empty

def looks (m : Machine) (name other : String) : Option (Bool × Bool) := do
  let c ← m.class? name
  let d ← m.class? other
  return (c.looksLike d, c.isInterface)

theorem machine_facts :
    TypedHeap.ended ((Request.load "B").run host 8 Machine.empty) = true ∧
      looks machine "B" "A" = some (true, false) ∧ looks machine "A" "I" = some (true, false) ∧
        looks machine "A" "B" = some (false, false) := by
  decide +kernel

theorem history : History host Works [.rested Machine.empty, .rested machine] :=
  (Rests.empty.next (.load "B") 8 machine_facts.1).history

theorem looks_eq {m : Machine} {name other : String} {answer kind : Bool}
    (h : looks m name other = some (answer, kind)) :
    ∃ c d, m.class? name = some c ∧ m.class? other = some d ∧ c.looksLike d = answer ∧
      c.isInterface = kind := by
  unfold looks at h
  rcases Option.bind_eq_some_iff.mp h with ⟨c, hc, hrest⟩
  rcases Option.bind_eq_some_iff.mp hrest with ⟨d, hd, heq⟩
  cases heq
  exact ⟨c, d, hc, hd, rfl, rfl⟩

/-- The subclass looks like the interface because the class in between does. -/
theorem subclass_implements :
    machine.AssignmentOrder ∧ ∃ a b i, machine.class? "A" = some a ∧ machine.class? "B" = some b ∧
      machine.class? "I" = some i ∧ b.looksLike a = true ∧ a.looksLike i = true ∧
        b.looksLike i = true ∧ a.looksLike b = false := by
  rcases machine_facts with ⟨-, hba, hai, hab⟩
  rcases looks_eq hba with ⟨b, a, hb, ha, hba, -⟩
  rcases looks_eq hai with ⟨a', i, ha', hi, hai, hkind⟩
  rcases looks_eq hab with ⟨a'', b', ha'', hb', hab, -⟩
  obtain rfl : a = a' := Option.some.inj (ha.symm.trans ha')
  obtain rfl : a = a'' := Option.some.inj (ha.symm.trans ha'')
  obtain rfl : b = b' := Option.some.inj (hb.symm.trans hb')
  have horder := history.assignability_ordered Native.library_polite (.rested machine)
    (List.mem_cons_of_mem _ List.mem_cons_self)
  rw [Event.machine] at horder
  refine ⟨horder, a, b, i, ha, hb, hi, hba, hai, ?_, hab⟩
  apply horder.trans b (mem_registered hb) a (mem_registered ha) i (mem_registered hi) hba hai
  intro hexcept
  rw [hkind] at hexcept
  cases hexcept.1

end Layers

end Bytecode
