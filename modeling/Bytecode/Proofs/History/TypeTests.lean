import Bytecode.Proofs.Class.Assignability
import Bytecode.Proofs.Loading.Resolved

/-!
# Type tests in the course of a history

Whether an object may be viewed as a type is settled when it is first asked, with one exception: an
array of a class that is not registered.  Its element class is compared with nothing, and the answer
changes once the class is loaded.
-/

namespace Bytecode
namespace ArrayClass

open Descriptor

/-!
# Array types
-/

inductive Fits (find? : String → Option Class) : List Char → List Char → Prop where
  | same (descriptor : List Char) : Fits find? descriptor descriptor
  | array {source target : List Char} (h : Fits find? source target) :
      Fits find? ('[' :: source) ('[' :: target)
  | above {source target : List Char} {name : String} (htarget : classNameOf? target = some name)
      (hname : name = rootName ∨ name ∈ arrayInterfaces) : Fits find? ('[' :: source) target
  | classes {source target : List Char} {name other : String} {c d : Class}
      (hsource : classNameOf? source = some name) (htarget : classNameOf? target = some other)
      (hc : find? name = some c) (hd : find? other = some d) (hlooks : c.looksLike d = true) :
      Fits find? source target

def innermost? (descriptor : List Char) : Option String :=
  classNameOf? (descriptor.dropWhile (· == '['))

variable {find? find?' : String → Option Class} {source target : List Char}

theorem eq_cons_of_classNameOf? {descriptor : List Char} {name : String}
    (h : classNameOf? descriptor = some name) : ∃ rest, descriptor = 'L' :: rest := by
  unfold classNameOf? at h
  split at h
  next rest => exact ⟨rest, rfl⟩
  next => cases h

theorem innermost?_of_classNameOf? {name : String} (h : classNameOf? source = some name) :
    innermost? source = some name := by
  rcases eq_cons_of_classNameOf? h with ⟨rest, rfl⟩
  exact h

theorem fits_of_componentFits (h : componentFits find? source target = true) :
    Fits find? source target := by
  -- both descriptors lose one bracket at a time
  fun_induction componentFits find? source target with
  | case1 target inner ih =>
      rcases Bool.or_eq_true_iff.mp h with heq | hfits
      · rw [of_decide_eq_true heq]
        exact .same _
      · exact .array (ih hfits)
  | case2 => cases h
  | case3 source target _ =>
      rcases Bool.or_eq_true_iff.mp h with heq | hfits
      · rw [of_decide_eq_true heq]
        exact .same _
      · split at hfits
        next => cases hfits
        next htarget =>
            split at hfits
            next =>
                refine .above htarget ?_
                simpa using hfits
            next =>
                split at hfits
                next => cases hfits
                next hsource =>
                    split at hfits
                    next hc hd => exact .classes hsource htarget hc hd hfits
                    next => cases hfits

theorem componentFits_of_fits (h : Fits find? source target) :
    componentFits find? source target = true := by
  induction h with
  | same descriptor =>
      unfold componentFits
      split <;> simp
  | array _ ih => simp [componentFits, ih]
  | above htarget hname =>
      rcases eq_cons_of_classNameOf? htarget with ⟨rest, rfl⟩
      simp [componentFits, htarget, hname]
  | classes hsource htarget hc hd hlooks =>
      rcases eq_cons_of_classNameOf? htarget with ⟨rest, rfl⟩
      rcases eq_cons_of_classNameOf? hsource with ⟨rest', rfl⟩
      simp [componentFits, hsource, htarget, hc, hd, hlooks]

/-- The second registry knows the classes of the first.  Classes of the first have all their
supertypes there. -/
structure Refines (find? find?' : String → Option Class) : Prop where
  kept : ∀ {name c}, find? name = some c → find?' name = some c
  closed : ∀ {name c other d}, find? name = some c → find?' other = some d →
    c.looksLike d = true → find? other = some d

theorem Fits.mono (h : Fits find? source target) (hrefines : Refines find? find?') :
    Fits find?' source target := by
  induction h with
  | same descriptor => exact .same descriptor
  | array _ ih => exact .array ih
  | above htarget hname => exact .above htarget hname
  | classes hsource htarget hc hd hlooks =>
      exact .classes hsource htarget (hrefines.kept hc) (hrefines.kept hd) hlooks

/-- What fits in the second registry fits in the first, unless only the second knows the class of
the innermost elements. -/
theorem Fits.known (h : Fits find?' source target) (hrefines : Refines find? find?') :
    Fits find? source target ∨
      ∃ name, innermost? source = some name ∧ find? name = none ∧ (find?' name).isSome := by
  induction h with
  | same descriptor => exact .inl (.same descriptor)
  | array _ ih =>
      rcases ih with hfits | hunknown
      · exact .inl (.array hfits)
      · exact .inr hunknown
  | above htarget hname => exact .inl (.above htarget hname)
  | @classes source target name other c d hsource htarget hc hd hlooks =>
      cases hknown : find? name with
      | none =>
          refine .inr ⟨name, innermost?_of_classNameOf? hsource, hknown, ?_⟩
          rw [hc]
          rfl
      | some c' =>
          have heq := hrefines.kept hknown
          rw [hc] at heq
          cases heq
          exact .inl (.classes hsource htarget hknown (hrefines.closed hknown hd hlooks) hlooks)

def elementClass? (a : ArrayClass) : Option String :=
  innermost? a.component.toList

theorem looksLike_iff {a : ArrayClass} {target : String} :
    a.looksLike find? target = true ↔
      (a.name = target ∨ a.parent.name = target ∨ target ∈ arrayInterfaces) ∨
        ∃ component, target.toList = '[' :: component ∧
          Fits find? a.component.toList component := by
  unfold looksLike
  constructor
  · intro h
    rcases Bool.or_eq_true_iff.mp h with h | h
    · refine .inl ?_
      simpa [or_assoc] using h
    · split at h
      next component htarget => exact .inr ⟨component, htarget, fits_of_componentFits h⟩
      next => cases h
  · rintro (h | ⟨component, htarget, hfits⟩)
    · simp only [Bool.or_eq_true, beq_iff_eq, List.contains_iff_mem, or_assoc]
      tauto
    · simp [htarget, componentFits_of_fits hfits]

theorem looksLike_mono {a : ArrayClass} {target : String} (hrefines : Refines find? find?')
    (h : a.looksLike find? target = true) : a.looksLike find?' target = true := by
  apply looksLike_iff.mpr
  rcases looksLike_iff.mp h with hnamed | ⟨component, htarget, hfits⟩
  · exact .inl hnamed
  · exact .inr ⟨component, htarget, hfits.mono hrefines⟩

theorem looksLike_known {a : ArrayClass} {target : String} (hrefines : Refines find? find?')
    (h : a.looksLike find?' target = true) :
    a.looksLike find? target = true ∨
      ∃ name, a.elementClass? = some name ∧ find? name = none ∧ (find?' name).isSome := by
  rcases looksLike_iff.mp h with hnamed | ⟨component, htarget, hfits⟩
  · exact .inl (looksLike_iff.mpr (.inl hnamed))
  · rcases hfits.known hrefines with hfits | hunknown
    · exact .inl (looksLike_iff.mpr (.inr ⟨component, htarget, hfits⟩))
    · exact .inr hunknown

def nested (depth : Nat) (name : String) : List Char :=
  List.replicate depth '[' ++ 'L' :: (name.toList ++ [';'])

def arrayName (depth : Nat) (name : String) : String :=
  String.ofList ('[' :: nested depth name)

theorem fits_nested {c d : Class} {name other : String} (hc : find? name = some c)
    (hd : find? other = some d) (hlooks : c.looksLike d = true) (depth : Nat) :
    Fits find? (nested depth name) (nested depth other) := by
  have hclass (n : String) : classNameOf? ('L' :: (n.toList ++ [';'])) = some n := by
    simp [classNameOf?]
  induction depth with
  | zero => exact .classes (hclass name) (hclass other) hc hd hlooks
  | succ depth ih => exact .array ih

end ArrayClass

/-!
# Tests
-/

namespace Machine

open ArrayClass Scene

variable {path : ClassPath} {host : Host} {m m' m₁ m₂ : Machine}

theorem class?_name {name : String} {c : Class} (h : m.class? name = some c) : c.name = name := by
  rcases Option.map_eq_some_iff.mp h with ⟨e, he, rfl⟩
  simpa using List.find?_some he

theorem Evolves.class? (h : Evolves m m') {name : String} {c : Class}
    (hc : m.class? name = some c) : m'.class? name = some c := by
  rcases Option.map_eq_some_iff.mp hc with ⟨e, he, rfl⟩
  have hstanding : m.standing? name = some (e.cls, e.state) :=
    Option.map_eq_some_iff.mpr ⟨e, he, rfl⟩
  rcases h.standing hstanding with ⟨s, hs, -⟩
  exact class?_of_standing? hs

/-- Registries refine each other in the course of time: the supertypes of a registered class are
registered with it, so no later class is one of them. -/
theorem Evolves.refines (h : Evolves m m') (hm : m.Consistent path) (hm' : m'.Consistent path) :
    Refines m.class? m'.class? := by
  constructor
  · exact h.class?
  · intro name c other d hc hd hlooks
    have habove := (hm'.hierarchy.looksLike_iff (mem_registered (h.class? hc))
      (mem_registered hd)).mp hlooks
    rw [← class?_name hd]
    exact hm.class? (hm.hierarchy.mem_of_above (mem_registered hc) habove)

/-- A test of an array looks at the registry as it is.  Any other object is compared with the class
that the loader gives for the target. -/
theorem isInstanceOf_eq_ok {load : Loader} {address : Nat} {target : String} {answer : Bool}
    (h : isInstanceOf load address target m = .ok answer m₁) :
    (∃ a, m.objects[address]? = some (.ofArray a) ∧
        answer = a.cls.looksLike m.class? target ∧ m₁ = m) ∨
      ∃ i, m.objects[address]? = some (.ofInstance i) ∧
        ((Descriptor.isArray target = true ∧ answer = false ∧ m₁ = m) ∨
          (Descriptor.isArray target = false ∧ ∃ t, load.loadClass target m = .ok t m₁ ∧
            answer = i.cls.looksLike t)) := by
  unfold isInstanceOf at h
  rcases bind_eq_ok h with ⟨o, m₀, hobject, htest⟩
  rcases object_eq_ok hobject with ⟨ho, rfl⟩
  cases o with
  | ofArray a =>
      cases htest
      exact .inl ⟨a, ho, rfl, rfl⟩
  | ofInstance i =>
      refine .inr ⟨i, ho, ?_⟩
      cases harray : Descriptor.isArray target with
      | true =>
          simp only [harray, if_true] at htest
          cases htest
          exact .inl ⟨rfl, rfl, rfl⟩
      | false =>
          simp only [harray, Bool.false_eq_true, if_false] at htest
          rcases bind_eq_ok htest with ⟨t, m₂, hload, heq⟩
          cases heq
          exact .inr ⟨rfl, t, hload, rfl⟩

theorem loadClass_keeps (hnatives : host.natives.Polite)
    (hinv : (conduct host.path True none).inv m) {fuel : Nat} {name : String} {c : Class}
    (h : (host.load fuel).loadClass name m = .ok c m₁) :
    Advances True m m₁ ∧ ∃ s, m₁.standing? name = some (c, s) := by
  have hends : (conduct host.path True none).Ends _ m (host.load fuel name m) :=
    (serving hnatives fuel (.load name) m hinv).1
  unfold Loader.loadClass at h
  rcases bind_eq_ok h with ⟨l, m₂, hload, hclass⟩
  rw [hload] at hends
  rcases hends with ⟨-, hrel, hanswers, -⟩
  cases l with
  | ofArray a => cases hclass
  | ofClass d =>
      cases hclass
      rcases hanswers with ⟨s, hs, -⟩
      exact ⟨.of_extends hrel, s, hs⟩

theorem loadClass_of_standing? {fuel : Nat} {name : String} {c d : Class} {s : ClassState}
    (harray : Descriptor.isArray name = false) (hs : m.standing? name = some (c, s))
    (h : (host.load fuel).loadClass name m = .ok d m₁) : d = c := by
  cases fuel with
  | zero => cases h
  | succ fuel =>
      rw [Host.loadClass_registered host fuel harray hs] at h
      split at h
      · cases h
      · cases h
        rfl

/-- The object is an array, and the class of its innermost elements is registered in the second
machine only. -/
def Unready (address : Nat) (m m' : Machine) : Prop :=
  ∃ a name, m.objects[address]? = some (.ofArray a) ∧ a.cls.elementClass? = some name ∧
    m.class? name = none ∧ (m'.class? name).isSome

theorem answers_again (hrefines : Refines m.class? m'.class?) {address : Nat} {a : ArrayObject}
    {target : String} (hobject : m.objects[address]? = some (.ofArray a)) :
    a.cls.looksLike m'.class? target = a.cls.looksLike m.class? target ∨
      (a.cls.looksLike m.class? target = false ∧ a.cls.looksLike m'.class? target = true ∧
        Unready address m m') := by
  cases hthen : a.cls.looksLike m.class? target with
  | true => exact .inl (looksLike_mono hrefines hthen)
  | false =>
      cases hnow : a.cls.looksLike m'.class? target with
      | false => exact .inl rfl
      | true =>
          rcases looksLike_known hrefines hnow with hlooks | ⟨name, hname, hnone, hsome⟩
          · rw [hthen] at hlooks
            cases hlooks
          · exact .inr ⟨rfl, rfl, a, name, hobject, hname, hnone, hsome⟩

theorem isInstanceOf_advances (hnatives : host.natives.Polite)
    (hinv : (conduct host.path True none).inv m) {fuel address : Nat} {target : String}
    {answer : Bool} (h : isInstanceOf (host.load fuel) address target m = .ok answer m₁) :
    Advances True m m₁ := by
  rcases isInstanceOf_eq_ok h with ⟨a, -, -, rfl⟩ | ⟨i, -, ⟨-, -, rfl⟩ | ⟨-, t, hload, -⟩⟩
  · exact Advances.refl _
  · exact Advances.refl _
  · exact (loadClass_keeps hnatives hinv hload).1

theorem isInstanceOf_again (hnatives : host.natives.Polite)
    (hinv : (conduct host.path True none).inv m) (hinv' : (conduct host.path True none).inv m')
    {fuel fuel' address : Nat} {target : String} {first second : Bool}
    (hfirst : isInstanceOf (host.load fuel) address target m = .ok first m₁)
    (hadvance : Advances True m₁ m')
    (hsecond : isInstanceOf (host.load fuel') address target m' = .ok second m₂) :
    second = first ∨ (first = false ∧ second = true ∧ Unready address m m') := by
  have hall := (isInstanceOf_advances hnatives hinv hfirst).trans hadvance
  rcases isInstanceOf_eq_ok hfirst with ⟨a, hobject, rfl, rfl⟩ | ⟨i, hobject, htest⟩
  · rcases hall.2 trivial address _ hobject with ⟨o, ho, hshape⟩
    rcases isInstanceOf_eq_ok hsecond with ⟨a', ha', rfl, -⟩ | ⟨i, hi, -⟩
    · rw [ho] at ha'
      cases ha'
      have hcls : a'.cls = a.cls := congrArg Prod.fst (Sum.inr.inj hshape)
      rw [hcls]
      have hrefines := hall.1.refines (hinv.2.1.consistent hinv.1) (hinv'.2.1.consistent hinv'.1)
      exact answers_again hrefines hobject
    · rw [ho] at hi
      cases hi
      cases hshape
  · rcases hall.2 trivial address _ hobject with ⟨o, ho, hshape⟩
    rcases isInstanceOf_eq_ok hsecond with ⟨a, ha, -⟩ | ⟨i', hi', htest'⟩
    · rw [ho] at ha
      cases ha
      cases hshape
    · rw [ho] at hi'
      cases hi'
      have hcls : i'.cls = i.cls := Sum.inl.inj hshape
      -- the target of the first test is registered since, so the second one is given the same class
      rcases htest with ⟨harray, rfl, -⟩ | ⟨harray, t, hload, rfl⟩
      · rcases htest' with ⟨-, rfl, -⟩ | ⟨hclass, -⟩
        · exact .inl rfl
        · rw [harray] at hclass
          cases hclass
      · rcases htest' with ⟨harray', -⟩ | ⟨-, t', hload', rfl⟩
        · rw [harray] at harray'
          cases harray'
        · rcases (loadClass_keeps hnatives hinv hload).2 with ⟨s, hs⟩
          rcases hadvance.1.standing hs with ⟨s', hs', -⟩
          rw [loadClass_of_standing? harray hs' hload', hcls]
          exact .inl rfl

theorem isInstanceOf_array {load : Loader} {address : Nat} {target : String} {a : ArrayObject}
    (h : m.objects[address]? = some (.ofArray a)) :
    isInstanceOf load address target m = .ok (a.cls.looksLike m.class? target) m := by
  unfold isInstanceOf
  exact bind_of_ok (object_found h)

theorem isInstanceOf_covariant (hm : m.Consistent path) {c d : Class} (hc : c ∈ m.registered)
    (hd : d ∈ m.registered) (hlooks : c.looksLike d = true) {load : Loader} {depth address : Nat}
    {a : ArrayObject} (hobject : m.objects[address]? = some (.ofArray a))
    (hname : a.cls.name = arrayName depth c.name) :
    isInstanceOf load address (arrayName depth d.name) m = .ok true m := by
  have hfits : a.cls.looksLike m.class? (arrayName depth d.name) = true := by
    apply looksLike_iff.mpr
    refine .inr ⟨nested depth d.name, String.toList_ofList, ?_⟩
    rw [component, hname, arrayName, String.toList_ofList, String.toList_ofList]
    exact fits_nested (hm.class? hc) (hm.class? hd) hlooks depth
  rw [isInstanceOf_array hobject, hfits]

end Machine

/-!
# Histories
-/

open Machine Scene

/-- Ordinary work has been done, and has kept the heap typed. -/
def Machine.Proceeds (m m' : Machine) : Prop :=
  Works m m' ∧ m'.Sound ∧ Grows m m'

/-- A test of a type is carried out at some moment of a history: at an event, or after ordinary work
that followed it. -/
structure Tested (host : Host) (events : List Event) (address : Nat) (target : String)
    (m : Machine) (answer : Bool) (m' : Machine) : Prop where
  moment : ∃ e ∈ events, e.machine.Proceeds m
  answered : ∃ fuel, isInstanceOf (host.load fuel) address target m = .ok answer m'

section

variable {path : ClassPath} {host : Host} {m m' : Machine} {events : List Event}

theorem Machine.Proceeds.keeps (h : m.Proceeds m') (hinv : (conduct path True none).inv m) :
    (conduct path True none).inv m' ∧ Advances True m m' := by
  rcases ordered_work hinv h.1 fun _ => h.2 with ⟨hinv', hrel⟩
  exact ⟨hinv', .of_extends hrel⟩

/-- From event to event the machine advances.  A test that is repeated later gives the same answer,
unless the object is an array whose element class was not registered the first time and has been
loaded since; and arrays of registered classes are as assignable as the classes. -/
theorem History.type_tests_kept (hnatives : host.natives.Polite)
    (h : History host Proceeds events) :
    (events.Pairwise fun a b => Advances True a.machine b.machine) ∧
      (∀ {address target m first m₁ m' second m₂},
        Tested host events address target m first m₁ → Advances True m₁ m' →
          Tested host events address target m' second m₂ →
            second = first ∨ (first = false ∧ second = true ∧ Unready address m m')) ∧
        ∀ e ∈ events, ∀ m, e.machine.Proceeds m → ∀ c ∈ m.registered, ∀ d ∈ m.registered,
          c.looksLike d = true → ∀ load depth address a, m.objects[address]? = some (.ofArray a) →
            a.cls.name = ArrayClass.arrayName depth c.name →
              isInstanceOf load address (ArrayClass.arrayName depth d.name) m = .ok true m := by
  have hchronicle : Chronicle host.path True Machine.empty events :=
    h.chronicle hnatives fun hinv hproceeds => hproceeds.keeps hinv
  have hmoment {m : Machine} (hm : ∃ e ∈ events, e.machine.Proceeds m) :
      (conduct host.path True none).inv m := by
    rcases hm with ⟨e, he, hproceeds⟩
    exact (hproceeds.keeps (hchronicle.inv e he)).1
  refine ⟨hchronicle.ordered.imp fun h => h.1, ?_, ?_⟩
  · rintro address target m first m₁ m' second m₂ ⟨hm, fuel, hfirst⟩ hadvance ⟨hm', fuel', hsecond⟩
    exact isInstanceOf_again hnatives (hmoment hm) (hmoment hm') hfirst hadvance hsecond
  · intro e he m hproceeds c hc d hd hlooks load depth address a hobject hname
    have hinv := hmoment ⟨e, he, hproceeds⟩
    exact isInstanceOf_covariant (hinv.2.1.consistent hinv.1) hc hd hlooks hobject hname

end

namespace LateElementClass

/-!
A class `A` and a subclass `B`.  An array of `B` is made before `B` is loaded.
-/

def host : Host :=
  Sample.host
    [("A", Sample.file "A" (some rootName) [] []),
      ("B", Sample.file "B" (some "A") [] [])]

def withClass : Machine := endOf ((Request.load "A").run host 8) Machine.empty

def withArray : Machine := endOf ((Request.newArray "[LB;" 1).run host 8) withClass

def withElementClass : Machine := endOf ((Request.load "B").run host 8) withArray

def withObject : Machine := endOf ((Request.newObject "A").run host 8) withElementClass

def events : List Event :=
  [.rested Machine.empty, .rested withClass, .rested withArray, .rested withElementClass,
    .rested withObject]

def arrayLooks (m : Machine) (address : Nat) (target : String) : Option Bool :=
  match m.objects[address]? with
  | some (.ofArray a) => some (a.cls.looksLike m.class? target)
  | _ => none

theorem machine_facts :
    (TypedHeap.ended ((Request.load "A").run host 8 Machine.empty) = true ∧
        TypedHeap.ended ((Request.newArray "[LB;" 1).run host 8 withClass) = true ∧
          TypedHeap.ended ((Request.load "B").run host 8 withArray) = true ∧
            TypedHeap.ended ((Request.newObject "A").run host 8 withElementClass) = true) ∧
      arrayLooks withArray 0 "[LA;" = some false ∧
        arrayLooks withElementClass 0 "[LA;" = some true ∧
          arrayLooks withObject 0 "[LA;" = some true := by
  decide +kernel

theorem history : History host Proceeds events := by
  rcases machine_facts.1 with ⟨hclass, harray, helement, hobject⟩
  have hrests : Rests host Proceeds [.rested Machine.empty, .rested withClass] withClass :=
    Rests.empty.next (.load "A") 8 hclass
  have hrests' : Rests host Proceeds
      [.rested Machine.empty, .rested withClass, .rested withArray] withArray :=
    hrests.next (.newArray "[LB;" 1) 8 harray
  exact ((hrests'.next (.load "B") 8 helement).next (.newObject "A") 8 hobject).history

theorem chronicle : Chronicle host.path True Machine.empty events :=
  history.chronicle Native.library_polite fun hinv h => h.keeps hinv

theorem advances :
    Advances True withArray withElementClass ∧ Advances True withElementClass withObject := by
  have hordered := chronicle.ordered
  simp only [events, List.pairwise_cons, List.forall_mem_cons, Event.Precedes, Event.machine]
    at hordered
  rcases hordered with ⟨-, -, ⟨hfirst, -⟩, ⟨hsecond, -⟩, -⟩
  exact ⟨hfirst.1, hsecond.1⟩

theorem tested {m : Machine} {answer : Bool} (hmem : .rested m ∈ events)
    (h : arrayLooks m 0 "[LA;" = some answer) :
    Tested host events 0 "[LA;" m answer m := by
  have hsound := (chronicle.inv _ hmem).2.2.1 trivial
  refine ⟨⟨_, hmem, ⟨rfl, rfl, rfl, rfl⟩, hsound, Grows.of_eq rfl⟩, 8, ?_⟩
  unfold arrayLooks at h
  split at h
  next a ha =>
      cases h
      exact isInstanceOf_array ha
  next => cases h

theorem mem_events :
    .rested withArray ∈ events ∧ .rested withElementClass ∈ events ∧ .rested withObject ∈ events :=
  ⟨.tail _ (.tail _ (.head _)), .tail _ (.tail _ (.tail _ (.head _))),
    .tail _ (.tail _ (.tail _ (.tail _ (.head _))))⟩

/-- The array of `B` is no array of `A` until `B` is loaded. -/
theorem array_test_changes :
    History host Proceeds events ∧ Tested host events 0 "[LA;" withArray false withArray ∧
      Advances True withArray withElementClass ∧
        Tested host events 0 "[LA;" withElementClass true withElementClass := by
  rcases machine_facts.2 with ⟨hthen, hnow, -⟩
  exact ⟨history, tested mem_events.1 hthen, advances.1, tested mem_events.2.1 hnow⟩

/-- From then on it stays one. -/
theorem array_test_settled :
    Tested host events 0 "[LA;" withElementClass true withElementClass ∧
      Advances True withElementClass withObject ∧
        Tested host events 0 "[LA;" withObject true withObject ∧
          ∀ answer m, Tested host events 0 "[LA;" withObject answer m → answer = true := by
  rcases machine_facts.2 with ⟨-, hnow, hlater⟩
  have hfirst := tested mem_events.2.1 hnow
  refine ⟨hfirst, advances.2, tested mem_events.2.2 hlater, fun answer m hsecond => ?_⟩
  rcases (history.type_tests_kept Native.library_polite).2.1 hfirst advances.2 hsecond with
    hsame | ⟨hfalse, -⟩
  · exact hsame
  · cases hfalse

end LateElementClass

end Bytecode
