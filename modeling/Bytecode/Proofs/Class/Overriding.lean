import Bytecode.Proofs.Class.Lookup
import Bytecode.Proofs.History.TypeTests

/-!
# Overriding among interfaces

A method that no class of the chain declares is taken from the first superinterface that declares
it.  The walk meets an interface before another that extends it only on a way around the latter, so
a redeclared method is passed over only for an interface that is also inherited some other way.
-/

namespace Bytecode

open Machine

namespace Class

variable {c d i j : Class} {name descriptor : String} {method : Method}

/-!
# The order of the walk
-/

/-- The list has `i`, and `j` not before it. -/
def MeetsFirst (i j : Class) (classes : List Class) : Prop :=
  ∃ before after, classes = before ++ i :: after ∧ j ∉ before

theorem MeetsFirst.of_append {xs ys : List Class} (h : MeetsFirst i j (xs ++ ys)) :
    MeetsFirst i j xs ∨ MeetsFirst i j ys := by
  rcases h with ⟨before, after, heq, hj⟩
  rcases List.append_eq_append_iff.mp heq with ⟨rest, rfl, hys⟩ | ⟨rest, rfl, hrest⟩
  · exact .inr ⟨rest, after, hys, fun hmem => hj (List.mem_append_right xs hmem)⟩
  · cases rest with
    | nil => exact .inr ⟨[], after, hrest.symm, List.not_mem_nil⟩
    | cons d rest =>
        obtain ⟨rfl, -⟩ := List.cons.inj hrest
        exact .inl ⟨before, rest, rfl, hj⟩

theorem MeetsFirst.of_cons {rest : List Class} (h : MeetsFirst i j (d :: rest)) :
    i = d ∨ (d ≠ j ∧ MeetsFirst i j rest) := by
  rcases h with ⟨before, after, heq, hj⟩
  cases before with
  | nil => exact .inl (List.cons.inj heq).1.symm
  | cons e before =>
      obtain ⟨rfl, hrest⟩ := List.cons.inj heq
      rw [List.mem_cons, not_or] at hj
      exact .inr ⟨Ne.symm hj.1, before, after, hrest, hj.2⟩

theorem MeetsFirst.of_withSuperinterfaces {classes : List Class} (hne : i ≠ j)
    (h : MeetsFirst i j (withSuperinterfaces classes)) :
    ∃ d ∈ classes, d ≠ j ∧ (i = d ∨ MeetsFirst i j d.superinterfaces) := by
  induction classes with
  | nil =>
      rcases h with ⟨before, after, heq, -⟩
      cases before <;> cases heq
  | cons d rest ih =>
      rcases h.of_cons with rfl | ⟨hd, h⟩
      · exact ⟨i, List.mem_cons_self, hne, .inl rfl⟩
      · rcases h.of_append with h | h
        · exact ⟨d, List.mem_cons_self, hd, .inr h⟩
        · rcases ih h with ⟨e, he, hmet⟩
          exact ⟨e, List.mem_cons_of_mem d he, hmet⟩

/-- A step to a direct supertype other than `j`. -/
def InheritsBeside (j c d : Class) : Prop := c.Inherits d ∧ d ≠ j

theorem MeetsFirst.step (hne : i ≠ j) (hparent : ¬ c.Extends j)
    (h : MeetsFirst i j c.superinterfaces) :
    ∃ d, InheritsBeside j c d ∧ (i = d ∨ MeetsFirst i j d.superinterfaces) := by
  cases c with
  | mk declarations parent interfaces =>
      rw [superinterfaces] at h
      rcases h.of_append with h | h
      · rcases h.of_withSuperinterfaces hne with ⟨d, hd, hmet⟩
        exact ⟨d, ⟨.inr hd, hmet.1⟩, hmet.2⟩
      · cases parent with
        | none =>
            rcases h with ⟨before, after, heq, -⟩
            cases before <;> cases heq
        | some p =>
            have hp : p ≠ j := by
              rintro rfl
              exact hparent rfl
            exact ⟨p, ⟨.inl rfl, hp⟩, .inr h⟩

/-- What no class of the chain declares is taken from the first superinterface that does. -/
theorem method?_first (h : c.method? name descriptor = some method)
    (hchain : ∀ t ∈ c.ancestors, ¬ t.Declares name descriptor) :
    ∃ before i after, c.superinterfaces = before ++ i :: after ∧
      i.declaredMethod? name descriptor = some method ∧
        ∀ t ∈ before, ¬ t.Declares name descriptor := by
  have hself := declaredMethod?_eq_none.mpr (hchain c (mem_ancestors_self c))
  rw [method?, findSome?_eq_none.mpr hchain] at h
  change (c :: c.superinterfaces).findSome? _ = _ at h
  rw [List.findSome?_cons, hself] at h
  rcases findSome?_eq_some h with ⟨before, i, after, hsplit, hfound, hbefore⟩
  exact ⟨before, i, after, hsplit, hfound, hbefore⟩

end Class

open Bytecode.Class

namespace Hierarchy

variable {classes : Set Class} {c i j : Class}

theorem implements_iff (h : Hierarchy classes) (hc : c ∈ classes) (hi : i ∈ classes)
    (hinterface : i.isInterface = true) :
    c.implements i = true ↔ i = c ∨ i ∈ c.superinterfaces := by
  rw [← h.looksLike_interface hc hi hinterface, looksLike, if_pos hinterface]

theorem inheritsBeside_of_meetsFirst (h : Hierarchy classes) (hc : c ∈ classes)
    (hj : j.isInterface = true) (hne : i ≠ j) (hmet : MeetsFirst i j c.superinterfaces) :
    Relation.ReflTransGen (InheritsBeside j) c i := by
  -- each step of the walk goes to a supertype, so the induction is on what is above the class
  induction c using inherits_wf.induction with
  | _ c ih =>
      have hparent : ¬ c.Extends j := by
        intro hextends
        have hclass := (h.extended hc hextends).2
        rw [hj] at hclass
        cases hclass
      rcases hmet.step hne hparent with ⟨d, hstep, rfl | hmet⟩
      · exact .single hstep
      · exact .head hstep (ih d hstep.1 (h.inherited hc (.single hstep.1)) hmet)

end Hierarchy

/-!
# Registered classes
-/

variable {path : ClassPath} {m : Machine} {c i j : Class} {name descriptor : String}
  {method : Method}

/-- The search from `c` ends in the interface `i` although `j` declares the method too: nothing that
is met before `i` declares it, `j` is met later, and some way from `c` to `i` does not go through
`j`. -/
structure Class.PassesOver (c i j : Class) (name descriptor : String) : Prop where
  order : ∃ before after, c.superinterfaces = before ++ i :: after ∧
    (∀ t ∈ before, ¬ t.Declares name descriptor) ∧ j ∈ after
  apart : Relation.ReflTransGen (InheritsBeside j) c i

theorem Machine.Consistent.passesOver (h : m.Consistent path) (hc : c ∈ m.registered)
    (hmethod : c.method? name descriptor = some method) (hi : i ∈ m.registered)
    (hinterface : i.isInterface = true) (howner : method.owner = i.name) (hj : j ∈ m.registered)
    (hne : j ≠ i) (hinterface' : j.isInterface = true) (hcj : c.implements j = true)
    (hji : j.implements i = true) (hdeclares : j.Declares name descriptor) :
    c.PassesOver i j name descriptor := by
  have hhierarchy := h.hierarchy
  rcases h.supplied hc hmethod with ⟨d, hsupplies⟩
  obtain rfl : d = i := hhierarchy.named hsupplies.registered hi (hsupplies.owner.symm.trans howner)
  have hchain : ∀ t ∈ c.ancestors, ¬ t.Declares name descriptor := by
    -- on the chain an interface can only be the class itself, and `j` would be above and below it
    intro t ht hdeclared
    rcases hsupplies.nearest ⟨t, ht, hdeclared⟩ with ⟨before, after, hsplit, hbefore⟩
    have hmem : d ∈ c.ancestors := by
      rw [hsplit]
      exact List.mem_append_right before List.mem_cons_self
    rcases hhierarchy.isInterface_superclass hc hmem with rfl | hclass
    · apply hne
      apply hhierarchy.looksLike_antisymm hj hi
      · rwa [looksLike, if_pos hinterface]
      · rwa [looksLike, if_pos hinterface']
    · rw [hinterface] at hclass
      cases hclass
  rcases method?_first hmethod hchain with ⟨before, e, after, hsplit, hfound, hbefore⟩
  have he : e ∈ m.registered := by
    apply hhierarchy.mem_of_superinterfaces hc
    rw [hsplit]
    exact List.mem_append_right before List.mem_cons_self
  have hname : e.name = d.name := by
    rw [← howner, h.owner he (declaredMethod?_eq_some hfound).1]
  obtain rfl : e = d := hhierarchy.named he hi hname
  have hbeside : j ∉ before := fun hmem => hbefore j hmem hdeclares
  have hlater : j ∈ after := by
    rcases (hhierarchy.implements_iff hc hj hinterface').mp hcj with rfl | hmem
    · exact absurd hdeclares (hchain j (mem_ancestors_self j))
    · rw [hsplit] at hmem
      rcases List.mem_append.mp hmem with hmem | hmem
      · exact absurd hmem hbeside
      · exact (List.mem_cons.mp hmem).resolve_left hne
  refine ⟨⟨before, after, hsplit, hbefore, hlater⟩, ?_⟩
  exact hhierarchy.inheritsBeside_of_meetsFirst hc hinterface' hne.symm
    ⟨before, after, hsplit, hbeside⟩

/-- At every event of a history, a method redeclared in an interface is passed over for the one it
overrides only if the overridden interface is met first and is also inherited around the other. -/
theorem History.overridden_inherited_apart {host : Host} {events : List Event}
    (hnatives : host.natives.Polite) (h : History host Works events) :
    ∀ e ∈ events, ∀ c ∈ e.machine.registered, ∀ name descriptor method,
      c.method? name descriptor = some method →
        ∀ i ∈ e.machine.registered, i.isInterface = true → method.owner = i.name →
          ∀ j ∈ e.machine.registered, j ≠ i → j.isInterface = true → c.implements j = true →
            j.implements i = true → j.Declares name descriptor →
              c.PassesOver i j name descriptor := by
  intro e he c hc name descriptor method hmethod i hi hinterface howner j hj hne hinterface' hcj hji
  exact (h.consistent hnatives he).passesOver hc hmethod hi hinterface howner hj hne hinterface' hcj
    hji

namespace ListedTwice

/-!
An interface `I` with a method, an interface `J` that extends it and declares the method again, and
a class `C` that lists `I` in front of `J`.
-/

def size (instruction : UInt8) : List Constant × MemberLayout :=
  ([.utf8 "size", .utf8 "()I"], ⟨0x1, 8, 9, [.code 5 ⟨1, 1, [instruction, 0xac], []⟩ []]⟩)

def listing : List UInt8 :=
  ClassLayout.bytes
    { minor := 0, major := 52
      constants := [.utf8 "C", .classRef 1, .utf8 rootName, .classRef 3, .utf8 "I", .classRef 5,
        .utf8 "J", .classRef 7]
      access := 0x21
      thisClass := 2
      superClass := 4
      interfaces := [6, 8], fields := [], methods := [], attributes := [] }

def host : Host :=
  Sample.host
    [("I", Sample.typeFile 0x601 "I" rootName none (size 0x04).1 [(size 0x04).2]),
      ("J", Sample.typeFile 0x601 "J" rootName (some "I") (size 0x05).1 [(size 0x05).2]),
      ("C", listing)]

def machine : Machine := endOf ((Request.load "C").run host 8) Machine.empty

theorem machine_facts :
    TypedHeap.ended ((Request.load "C").run host 8 Machine.empty) = true ∧
      (Layers.looks machine "C" "J" = some (true, false) ∧
          Layers.looks machine "J" "I" = some (true, true) ∧
            Layers.looks machine "I" "I" = some (true, true)) ∧
        Layers.sizeOwner machine "C" = some "I" ∧ Layers.sizeOwner machine "J" = some "J" := by
  decide +kernel

theorem history : History host Works [.rested Machine.empty, .rested machine] :=
  (Rests.empty.next (.load "C") 8 machine_facts.1).history

theorem mem_events : .rested machine ∈ [Event.rested Machine.empty, .rested machine] :=
  .tail _ (.head _)

theorem consistent : machine.Consistent host.path := by
  have h := history.consistent Native.library_polite mem_events
  rwa [Event.machine] at h

theorem declares_of_sizeOwner {path : ClassPath} {m : Machine} {name : String} {c : Class}
    (hconsistent : m.Consistent path) (hc : m.class? name = some c)
    (h : Layers.sizeOwner m name = some name) : c.Declares "size" "()I" := by
  rcases Layers.sizeOwner_eq h with ⟨c', method, hc', hmethod, howner⟩
  obtain rfl : c = c' := Option.some.inj (hc.symm.trans hc')
  rcases hconsistent.supplied (mem_registered hc) hmethod with ⟨d, hsupplies⟩
  have hname : d.name = c.name := by rw [← hsupplies.owner, howner, class?_name hc]
  obtain rfl : d = c :=
    hconsistent.hierarchy.named hsupplies.registered (mem_registered hc) hname
  exact ⟨method, declaredMethod?_eq_some hsupplies.declared⟩

/-- The method of `I` is found from `C`, although `J` overrides it. -/
theorem overridden_found :
    ∃ c i j method, machine.class? "C" = some c ∧ machine.class? "I" = some i ∧
      machine.class? "J" = some j ∧ c.method? "size" "()I" = some method ∧
        i.isInterface = true ∧ method.owner = i.name ∧ j ≠ i ∧ j.isInterface = true ∧
          c.implements j = true ∧ j.implements i = true ∧ j.Declares "size" "()I" := by
  rcases machine_facts with ⟨-, ⟨hcj, hji, hii⟩, hfound, hdeclared⟩
  rcases Layers.looks_eq hcj with ⟨c, j, hc, hj, hcj, -⟩
  rcases Layers.looks_eq hji with ⟨j', i, hj', hi, hji, hinterface'⟩
  rcases Layers.looks_eq hii with ⟨i', -, hi', -, -, hinterface⟩
  rcases Layers.sizeOwner_eq hfound with ⟨c', method, hc', hmethod, howner⟩
  obtain rfl : j = j' := Option.some.inj (hj.symm.trans hj')
  obtain rfl : i = i' := Option.some.inj (hi.symm.trans hi')
  obtain rfl : c = c' := Option.some.inj (hc.symm.trans hc')
  have hne : j ≠ i := by
    intro heq
    have hname := (class?_name hj).symm.trans ((congrArg Class.name heq).trans (class?_name hi))
    exact absurd hname (by decide)
  rw [looksLike, if_pos hinterface'] at hcj
  rw [looksLike, if_pos hinterface] at hji
  exact ⟨c, i, j, method, hc, hi, hj, hmethod, hinterface, howner.trans (class?_name hi).symm, hne,
    hinterface', hcj, hji, declares_of_sizeOwner consistent hj hdeclared⟩

/-- A method that an interface overrides may be selected all the same. -/
theorem overridden_selected :
    ¬ ∀ (host : Host) (events : List Event), host.natives.Polite → History host Works events →
      ∀ e ∈ events, ∀ c ∈ e.machine.registered, ∀ name descriptor method,
        c.method? name descriptor = some method →
          ∀ i ∈ e.machine.registered, i.isInterface = true → method.owner = i.name →
            ¬ ∃ j ∈ e.machine.registered, j ≠ i ∧ j.isInterface = true ∧ c.implements j = true ∧
              j.implements i = true ∧ j.Declares name descriptor := by
  intro hnever
  rcases overridden_found with ⟨c, i, j, method, hc, hi, hj, hmethod, hinterface, howner, hbeside⟩
  have hmachine := hnever host _ Native.library_polite history _ mem_events
  rw [Event.machine] at hmachine
  exact hmachine c (mem_registered hc) _ _ method hmethod i (mem_registered hi) hinterface howner
    ⟨j, mem_registered hj, hbeside⟩

/-- The class lists `I` itself, and in front of `J`. -/
theorem size_passed_over :
    ∃ c i j, machine.class? "C" = some c ∧ machine.class? "I" = some i ∧
      machine.class? "J" = some j ∧ c.PassesOver i j "size" "()I" := by
  rcases overridden_found with ⟨c, i, j, method, hc, hi, hj, hmethod, hinterface, howner, hne,
    hinterface', hcj, hji, hdeclares⟩
  have hpasses := history.overridden_inherited_apart Native.library_polite _ mem_events
  rw [Event.machine] at hpasses
  exact ⟨c, i, j, hc, hi, hj, hpasses c (mem_registered hc) _ _ method hmethod i (mem_registered hi)
    hinterface howner j (mem_registered hj) hne hinterface' hcj hji hdeclares⟩

end ListedTwice
end Bytecode
