import Bytecode.Proofs.Class.Assignability

/-!
# Lookup of methods

A method is searched on the superclass chain first and among the superinterfaces then.  The search
therefore finds a method exactly if something declares it that the class looks like, and what it
finds on the chain is the nearest declaration.
-/

namespace Bytecode

open Machine

theorem Method.isNamed_iff {method : Method} {name descriptor : String} :
    method.isNamed name descriptor = true ↔
      method.name = name ∧ method.descriptor = descriptor := by
  simp [isNamed]

namespace Class

variable {c d : Class} {name descriptor : String} {method : Method}

def Declares (c : Class) (name descriptor : String) : Prop :=
  ∃ method ∈ c.methods, method.name = name ∧ method.descriptor = descriptor

theorem declaredMethod?_eq_none :
    c.declaredMethod? name descriptor = none ↔ ¬ c.Declares name descriptor := by
  simp only [declaredMethod?, List.find?_eq_none, Method.isNamed_iff, Declares, not_exists, not_and]

theorem declaredMethod?_eq_some (h : c.declaredMethod? name descriptor = some method) :
    method ∈ c.methods ∧ method.name = name ∧ method.descriptor = descriptor := by
  unfold declaredMethod? at h
  have hnamed := List.find?_some h
  exact ⟨List.mem_of_find?_eq_some h, Method.isNamed_iff.mp hnamed⟩

theorem findSome?_eq_none {classes : List Class} :
    classes.findSome? (·.declaredMethod? name descriptor) = none ↔
      ∀ d ∈ classes, ¬ d.Declares name descriptor := by
  simp only [List.findSome?_eq_none_iff, declaredMethod?_eq_none]

theorem findSome?_eq_some {classes : List Class}
    (h : classes.findSome? (·.declaredMethod? name descriptor) = some method) :
    ∃ before d after, classes = before ++ d :: after ∧
      d.declaredMethod? name descriptor = some method ∧
        ∀ t ∈ before, ¬ t.Declares name descriptor := by
  rcases List.findSome?_eq_some_iff.mp h with ⟨before, d, after, hsplit, hfound, hbefore⟩
  exact ⟨before, d, after, hsplit, hfound, fun t ht => declaredMethod?_eq_none.mp (hbefore t ht)⟩

/-- What the search from a class finds is the nearest declaration on the chain, or else one of a
superinterface. -/
theorem method?_eq_some (h : c.method? name descriptor = some method) :
    ∃ d, d.declaredMethod? name descriptor = some method ∧
      ((∃ before after, c.ancestors = before ++ d :: after ∧
          ∀ t ∈ before, ¬ t.Declares name descriptor) ∨
        (d ∈ c.superinterfaces ∧ ∀ t ∈ c.ancestors, ¬ t.Declares name descriptor)) := by
  unfold method? at h
  cases hchain : c.ancestors.findSome? (·.declaredMethod? name descriptor) with
  | some found =>
      rw [hchain] at h
      cases h
      rcases findSome?_eq_some hchain with ⟨before, d, after, hsplit, hfound, hbefore⟩
      exact ⟨d, hfound, .inl ⟨before, after, hsplit, hbefore⟩⟩
  | none =>
      rw [hchain] at h
      have hnone := findSome?_eq_none.mp hchain
      rcases findSome?_eq_some h with ⟨before, d, after, hsplit, hfound, -⟩
      have hmem : d ∈ c :: c.superinterfaces := by
        rw [hsplit]
        exact List.mem_append_right before List.mem_cons_self
      rcases List.mem_cons.mp hmem with rfl | hmem
      · -- the search among the superinterfaces starts at the class, which declares nothing
        have hself := declaredMethod?_eq_none.mpr (hnone d (mem_ancestors_self d))
        rw [hself] at hfound
        cases hfound
      · exact ⟨d, hfound, .inr ⟨hmem, hnone⟩⟩

theorem method?_eq_none :
    c.method? name descriptor = none ↔
      ∀ d, d ∈ c.ancestors ∨ d ∈ c.superinterfaces → ¬ d.Declares name descriptor := by
  unfold method? interfaceMethod?
  constructor
  · intro h
    cases hchain : c.ancestors.findSome? (·.declaredMethod? name descriptor) with
    | some found =>
        rw [hchain] at h
        cases h
    | none =>
        rw [hchain] at h
        rintro d (hd | hd)
        · exact findSome?_eq_none.mp hchain d hd
        · exact findSome?_eq_none.mp h d (List.mem_cons_of_mem c hd)
  · intro h
    rw [findSome?_eq_none.mpr fun d hd => h d (.inl hd)]
    apply findSome?_eq_none.mpr
    intro d hd
    rcases List.mem_cons.mp hd with rfl | hd
    · exact h d (.inl (mem_ancestors_self d))
    · exact h d (.inr hd)

theorem method?_named (h : c.method? name descriptor = some method) :
    method.name = name ∧ method.descriptor = descriptor := by
  rcases method?_eq_some h with ⟨d, hfound, -⟩
  exact (declaredMethod?_eq_some hfound).2

end Class

open Bytecode.Class

/-!
# Registered classes
-/

variable {path : ClassPath} {m : Machine} {c d : Class} {name descriptor : String} {method : Method}

/-- The search for a method from one class ends in another: the latter declares the method, and
nothing before it on the superclass chain does. -/
structure Machine.Supplies (m : Machine) (c : Class) (name descriptor : String) (method : Method)
    (d : Class) : Prop where
  registered : d ∈ m.registered
  declared : d.declaredMethod? name descriptor = some method
  owner : method.owner = d.name
  assignable : c.looksLike d = true
  nearest : (∃ t ∈ c.ancestors, t.Declares name descriptor) →
    ∃ before after, c.ancestors = before ++ d :: after ∧ ∀ t ∈ before, ¬ t.Declares name descriptor

theorem Machine.Consistent.owner (h : m.Consistent path) (hc : c ∈ m.registered)
    (hmethod : method ∈ c.methods) : method.owner = c.name := by
  rcases hc with ⟨e, he, rfl⟩
  rcases h.made e he with ⟨file, -, hdeclarations, -⟩
  rcases Declarations.ofFile_eq_ok hdeclarations with ⟨fields, methods, -, hmethods, hdeclared⟩
  rw [Class.methods, hdeclared] at hmethod
  rw [Class.name, hdeclared]
  rcases mem_of_mapM hmethods hmethod with ⟨member, -, hmember⟩
  exact (Method.ofMember_eq_ok hmember).2.2

theorem Machine.Consistent.method?_isSome (h : m.Consistent path) (hc : c ∈ m.registered) :
    (c.method? name descriptor).isSome = true ↔
      ∃ t ∈ m.registered, c.looksLike t = true ∧ t.Declares name descriptor := by
  have hhierarchy := h.hierarchy
  constructor
  · intro hsome
    by_contra hnone
    have hmissing : c.method? name descriptor = none := by
      apply method?_eq_none.mpr
      intro d hd hdeclares
      have hregistered := hhierarchy.mem_of_above hc hd
      exact hnone ⟨d, hregistered, (hhierarchy.looksLike_iff hc hregistered).mpr hd, hdeclares⟩
    rw [hmissing] at hsome
    cases hsome
  · rintro ⟨t, ht, hlooks, hdeclares⟩
    rw [Option.isSome_iff_ne_none]
    intro hnone
    exact method?_eq_none.mp hnone t ((hhierarchy.looksLike_iff hc ht).mp hlooks) hdeclares

theorem Machine.Consistent.supplied (h : m.Consistent path) (hc : c ∈ m.registered)
    (hmethod : c.method? name descriptor = some method) :
    ∃ d, m.Supplies c name descriptor method d := by
  have hhierarchy := h.hierarchy
  rcases method?_eq_some hmethod with ⟨d, hfound, hplace⟩
  have habove : d ∈ c.ancestors ∨ d ∈ c.superinterfaces := by
    rcases hplace with ⟨before, after, hsplit, -⟩ | ⟨hmem, -⟩
    · rw [hsplit]
      exact .inl (List.mem_append_right before List.mem_cons_self)
    · exact .inr hmem
  have hregistered := hhierarchy.mem_of_above hc habove
  refine ⟨d, hregistered, hfound, ?_, (hhierarchy.looksLike_iff hc hregistered).mpr habove, ?_⟩
  · exact h.owner hregistered (declaredMethod?_eq_some hfound).1
  · rintro ⟨t, ht, hdeclares⟩
    rcases hplace with hsplit | ⟨-, hnone⟩
    · exact hsplit
    · exact absurd hdeclares (hnone t ht)

/-- At every event of a history, the search for a method from a registered class succeeds exactly if
some registered class declares it that the former looks like; and it ends in such a class, the
nearest one if there is any on the superclass chain. -/
theorem History.lookup_agrees {host : Host} {events : List Event} (hnatives : host.natives.Polite)
    (h : History host Works events) :
    ∀ e ∈ events, ∀ c ∈ e.machine.registered, ∀ name descriptor,
      ((c.method? name descriptor).isSome = true ↔
        ∃ t ∈ e.machine.registered, c.looksLike t = true ∧ t.Declares name descriptor) ∧
      ∀ method, c.method? name descriptor = some method →
        ∃ d, e.machine.Supplies c name descriptor method d := by
  intro e he c hc name descriptor
  have hconsistent := h.consistent hnatives he
  constructor
  · exact hconsistent.method?_isSome hc
  · exact fun method hmethod => hconsistent.supplied hc hmethod

namespace Layers

def sizeOwner (m : Machine) (name : String) : Option String := do
  let c ← m.class? name
  let method ← c.method? "size" "()I"
  return method.owner

theorem sizeOwner_facts :
    sizeOwner machine "A" = some "I" ∧ sizeOwner machine "B" = some "B" := by
  decide +kernel

theorem sizeOwner_eq {m : Machine} {name owner : String} (h : sizeOwner m name = some owner) :
    ∃ c method, m.class? name = some c ∧ c.method? "size" "()I" = some method ∧
      method.owner = owner := by
  unfold sizeOwner at h
  rcases Option.bind_eq_some_iff.mp h with ⟨c, hc, hrest⟩
  rcases Option.bind_eq_some_iff.mp hrest with ⟨method, hmethod, heq⟩
  cases heq
  exact ⟨c, method, hc, hmethod, rfl⟩

/-- The class that declares no such method gets it from the interface, its subclass from itself. -/
theorem size_supplied :
    (∃ a method i, machine.class? "A" = some a ∧ a.method? "size" "()I" = some method ∧
        machine.Supplies a "size" "()I" method i ∧ i.name = "I") ∧
      ∃ b method d, machine.class? "B" = some b ∧ b.method? "size" "()I" = some method ∧
        machine.Supplies b "size" "()I" method d ∧ d.name = "B" := by
  have hagrees := history.lookup_agrees Native.library_polite (.rested machine)
    (List.mem_cons_of_mem _ List.mem_cons_self)
  rw [Event.machine] at hagrees
  constructor
  · rcases sizeOwner_eq sizeOwner_facts.1 with ⟨a, method, ha, hmethod, howner⟩
    rcases (hagrees a (mem_registered ha) _ _).2 method hmethod with ⟨i, hsupplies⟩
    exact ⟨a, method, i, ha, hmethod, hsupplies, hsupplies.owner.symm.trans howner⟩
  · rcases sizeOwner_eq sizeOwner_facts.2 with ⟨b, method, hb, hmethod, howner⟩
    rcases (hagrees b (mem_registered hb) _ _).2 method hmethod with ⟨d, hsupplies⟩
    exact ⟨b, method, d, hb, hmethod, hsupplies, hsupplies.owner.symm.trans howner⟩

end Layers

end Bytecode
