import Bytecode.Proofs.Dialogue.Session
import Bytecode.Proofs.Loading.Load

/-!
# The registry of classes

Every registered class is what the loader made of its file: the superclass and the interfaces that
the file declares are registered too, the very same classes, and the constant table is that of the
file.  Supertypes are therefore never circular.  A class that is registered stays registered, and
its state changes at most once.
-/

namespace Bytecode

open Machine

theorem Class.sizeOf_lt {c d : Class} (h : c.parent = some d ∨ d ∈ c.interfaces) :
    sizeOf d < sizeOf c := by
  obtain ⟨declarations, parent, interfaces⟩ := c
  rcases h with h | h
  · change parent = some d at h
    subst h
    simp
    omega
  · have hlt := List.sizeOf_lt_of_mem (show d ∈ interfaces from h)
    simp
    omega

theorem Field.ofMember_honest {owner : String} {member : Member} {f : Field}
    (h : Field.ofMember owner member = .ok f) : f.Honest ∧ f.owner = owner := by
  unfold Field.ofMember at h
  cases htype : Descriptor.fieldType member.descriptor with
  | error e =>
      rw [htype] at h
      cases h
  | ok type =>
      rw [htype] at h
      cases h
      exact ⟨htype, rfl⟩

namespace Machine

variable {path : ClassPath} {m m' : Machine} {name : String} {c : Class}

/-!
# Registered classes and their files
-/

/-- The class is made of the file, with supertypes that are registered. -/
structure Links (m : Machine) (file : ClassFile) (c : Class) : Prop where
  declarations : Declarations.ofFile file = .ok c.declarations
  root : c.parent = none ↔ c.name = rootName
  superName : file.superName = c.parent.map Class.name
  interfaceNames : file.interfaces = c.interfaces.map Class.name
  parent : ∀ p, c.parent = some p → p.isInterface = false ∧ ∃ s, m.standing? p.name = some (p, s)
  interfaces : ∀ i ∈ c.interfaces, i.isInterface = true ∧ ∃ s, m.standing? i.name = some (i, s)

def Registry (path : ClassPath) (m : Machine) : Prop :=
  ∀ name c s, m.standing? name = some (c, s) →
    ∃ file, path.Declares name file ∧ m.Links file c ∧ m.pool? name = some file.pool

theorem Links.owner {file : ClassFile} (h : m.Links file c) :
    ∀ f ∈ c.staticFields, f.owner = c.name := by
  obtain ⟨fields, methods, hfields, -, hdeclared⟩ := Declarations.ofFile_eq_ok h.declarations
  intro f hf
  rw [Class.staticFields, hdeclared] at hf
  obtain ⟨member, -, hmember⟩ := mem_of_mapM hfields (List.mem_filter.mp hf).1
  rw [Class.name, hdeclared]
  exact (Field.ofMember_honest hmember).2

theorem Registry.empty : Machine.empty.Registry path := nofun

theorem Links.mono {file : ClassFile} (h : m.Links file c)
    (hkept : ∀ {n d s}, m.standing? n = some (d, s) → ∃ s', m'.standing? n = some (d, s')) :
    m'.Links file c := by
  refine ⟨h.declarations, h.root, h.superName, h.interfaceNames, ?_, ?_⟩
  · intro p hp
    obtain ⟨hclass, s, hs⟩ := h.parent p hp
    exact ⟨hclass, hkept hs⟩
  · intro i hi
    obtain ⟨hinterface, s, hs⟩ := h.interfaces i hi
    exact ⟨hinterface, hkept hs⟩

/-- Machines with the same classes, in whatever state, and the same tables have the same
registry. -/
theorem Registry.of_kept (h : m.Registry path)
    (hkept : ∀ {n d s}, m.standing? n = some (d, s) → ∃ s', m'.standing? n = some (d, s'))
    (hback : ∀ {n d s}, m'.standing? n = some (d, s) → ∃ s', m.standing? n = some (d, s'))
    (hpools : ∀ n, m'.pool? n = m.pool? n) : m'.Registry path := by
  intro n d s hs
  obtain ⟨s', hs'⟩ := hback hs
  obtain ⟨file, hfile, hlinks, hpool⟩ := h n d s' hs'
  refine ⟨file, hfile, hlinks.mono hkept, ?_⟩
  rw [hpools, hpool]

theorem Registry.of_eq (h : m.Registry path) (hstanding : ∀ n, m'.standing? n = m.standing? n)
    (hpools : ∀ n, m'.pool? n = m.pool? n) : m'.Registry path := by
  apply h.of_kept
  · intro n d s hs
    exact ⟨s, (hstanding n).trans hs⟩
  · intro n d s hs
    exact ⟨s, (hstanding n).symm.trans hs⟩
  · exact hpools

theorem Registry.setState (h : m.Registry path) (name : String) (s : ClassState) :
    (m.setState name s).Registry path := by
  apply h.of_kept
  · intro n d t ht
    exact setState_keeps ht s
  · intro n d t ht
    rw [setState_standing?] at ht
    split at ht
    next =>
        rcases Option.map_eq_some_iff.mp ht with ⟨p, hp, heq⟩
        cases heq
        exact ⟨p.2, hp⟩
    next => exact ⟨t, ht⟩
  · exact fun _ => rfl

theorem Registry.enter {file : ClassFile} (h : m.Registry path) (hfile : path.Declares c.name file)
    (hlinks : m.Links file c) (hnone : m.standing? c.name = none)
    (hpool : m.pool? c.name = none) : (m.enter c file.pool).Registry path := by
  have hkept {n : String} {d : Class} {s : ClassState} (hs : m.standing? n = some (d, s)) :
      ∃ s', (m.enter c file.pool).standing? n = some (d, s') :=
    ⟨s, enter_standing_kept _ hnone hs⟩
  intro n d s hs
  rw [enter_standing? _ hnone] at hs
  rw [enter_pool? hpool]
  split at hs
  next hn =>
      cases hs
      rw [hn, if_pos rfl]
      exact ⟨file, hfile, hlinks.mono hkept, rfl⟩
  next hn =>
      obtain ⟨file', hfile', hlinks', hpool'⟩ := h n d s hs
      rw [if_neg hn]
      exact ⟨file', hfile', hlinks'.mono hkept, hpool'⟩

/-!
# Supertypes
-/

def Below (m : Machine) (name other : String) : Prop :=
  ∃ c s d, m.standing? name = some (c, s) ∧ (c.parent = some d ∨ d ∈ c.interfaces) ∧
    d.name = other

theorem Registry.below_registered (h : m.Registry path) {other : String}
    (hbelow : m.Below name other) :
    ∃ c s d t, m.standing? name = some (c, s) ∧ m.standing? other = some (d, t) ∧
      sizeOf d < sizeOf c := by
  obtain ⟨c, s, d, hs, hsuper, rfl⟩ := hbelow
  obtain ⟨file, -, hlinks, -⟩ := h name c s hs
  have hregistered : ∃ t, m.standing? d.name = some (d, t) := by
    rcases hsuper with hparent | hinterface
    · exact (hlinks.parent d hparent).2
    · exact (hlinks.interfaces d hinterface).2
  obtain ⟨t, ht⟩ := hregistered
  exact ⟨c, s, d, t, hs, ht, Class.sizeOf_lt hsuper⟩

theorem Registry.acyclic (h : m.Registry path) (name : String) :
    ¬ Relation.TransGen m.Below name name := by
  -- every step up leads to a smaller class
  have hsmaller {a b : String} (hab : Relation.TransGen m.Below a b) :
      ∃ c s d t, m.standing? a = some (c, s) ∧ m.standing? b = some (d, t) ∧
        sizeOf d < sizeOf c := by
    induction hab with
    | single hstep => exact h.below_registered hstep
    | tail _ hstep ih =>
        obtain ⟨c, s, d, t, hc, hd, hlt⟩ := ih
        obtain ⟨d', t', e, u, hd', he, hlt'⟩ := h.below_registered hstep
        rw [hd] at hd'
        cases hd'
        exact ⟨c, s, e, u, hc, he, hlt'.trans hlt⟩
  intro hcycle
  obtain ⟨c, s, d, t, hc, hd, hlt⟩ := hsmaller hcycle
  rw [hc] at hd
  cases hd
  exact Nat.lt_irrefl _ hlt

/-!
# What becomes of a machine
-/

/-- Registered classes stay registered with their tables, and only a class that is linked changes
its state. -/
structure Evolves (m m' : Machine) : Prop where
  standing : ∀ {name c s}, m.standing? name = some (c, s) →
    ∃ s', m'.standing? name = some (c, s') ∧ (s' = s ∨ s = .linked)
  pools : ∀ {name pool}, m.pool? name = some pool → m'.pool? name = some pool

theorem Evolves.refl (m : Machine) : Evolves m m :=
  ⟨fun hs => ⟨_, hs, .inl rfl⟩, id⟩

theorem Evolves.trans {a b c : Machine} (h : Evolves a b) (h' : Evolves b c) : Evolves a c := by
  refine ⟨?_, fun hp => h'.pools (h.pools hp)⟩
  intro name cls s hs
  obtain ⟨s₁, hs₁, hmove₁⟩ := h.standing hs
  obtain ⟨s₂, hs₂, hmove₂⟩ := h'.standing hs₁
  refine ⟨s₂, hs₂, ?_⟩
  rcases hmove₁ with rfl | hlinked
  · exact hmove₂
  · exact .inr hlinked

theorem Extends.evolves (h : Extends m m') : Evolves m m' :=
  ⟨fun hs => ⟨_, h.standing hs, .inl rfl⟩, h.pools⟩

theorem Evolves.begin (m : Machine) (name : String) : Evolves m (m.begin name) :=
  ⟨fun hs => ⟨_, hs, .inl rfl⟩, id⟩

theorem Evolves.finish (m : Machine) (name : String) : Evolves m (m.finish name) :=
  ⟨fun hs => ⟨_, hs, .inl rfl⟩, id⟩

theorem Evolves.enter {pool : Pool} (hnone : m.standing? c.name = none)
    (hpool : m.pool? c.name = none) : Evolves m (m.enter c pool) := by
  constructor
  · exact fun hs => ⟨_, enter_standing_kept _ hnone hs, .inl rfl⟩
  · exact fun hp => enter_pool_kept hpool hp

theorem Evolves.setState (hlinked : m.standing? name = some (c, .linked)) (s : ClassState) :
    Evolves m (m.setState name s) := by
  refine ⟨?_, id⟩
  intro n d t ht
  rw [setState_standing?]
  split
  next hn =>
      subst hn
      rw [hlinked] at ht
      cases ht
      rw [hlinked]
      exact ⟨s, rfl, .inr rfl⟩
  next => exact ⟨t, ht, .inl rfl⟩

/-!
# The heap
-/

theorem Sound.setState (h : m.Sound) (name : String) (s : ClassState) :
    (m.setState name s).Sound :=
  h.modifyEntry name fun e he _ => h.classes e he

theorem Sound.begin (h : m.Sound) (name : String) : (m.begin name).Sound :=
  ⟨h.classes, h.arrays, h.resolved, h.objects⟩

theorem Sound.finish (h : m.Sound) (name : String) : (m.finish name).Sound :=
  ⟨h.classes, h.arrays, h.resolved, h.objects⟩

theorem Sound.enter (h : m.Sound) (hc : c.Honest) (pool : Pool) : (m.enter c pool).Sound := by
  refine ⟨?_, h.arrays, h.resolved, h.objects⟩
  intro e he
  rcases List.mem_append.mp he with he | he
  · exact h.classes e he
  · rw [List.mem_singleton.mp he]
    exact Entry.ofClass_typed hc

theorem Sound.honest (h : m.Sound) {s : ClassState} (hs : m.standing? name = some (c, s)) :
    c.Honest := by
  obtain ⟨e, he, rfl, -⟩ := exists_entry hs
  exact (h.classes e he).1

theorem Links.honest {file : ClassFile} (h : m.Links file c) (hsound : m.Sound) : c.Honest := by
  obtain ⟨fields, methods, hfields, -, hdeclared⟩ := Declarations.ofFile_eq_ok h.declarations
  have hfield (f : Field) (hf : f ∈ fields) : f.Honest := by
    obtain ⟨member, -, hmember⟩ := mem_of_mapM hfields hf
    exact (Field.ofMember_honest hmember).1
  obtain ⟨declarations, parent, interfaces⟩ := c
  change declarations = _ at hdeclared
  subst hdeclared
  apply Class.Honest.mk
  · intro f hf
    exact hfield f (List.mem_filter.mp hf).1
  · intro f hf
    exact hfield f (List.mem_filter.mp hf).1
  · intro p hp
    obtain ⟨-, s, hs⟩ := h.parent p hp
    exact hsound.honest hs
  · intro i hi
    obtain ⟨-, s, hs⟩ := h.interfaces i hi
    exact hsound.honest hs

end Machine
end Bytecode
