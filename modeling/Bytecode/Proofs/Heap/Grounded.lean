import Bytecode.Proofs.Heap.Typing
import Bytecode.Thread.Basic

/-!
# What belongs to registered classes

In a grounded machine objects, arrays, static fields and followed class references all belong to
registered classes, and everything that a registered class leads to is registered as well.  A method
that is found there can be called, and a static field that is found has a value.
-/

namespace Bytecode

theorem Object.receiverClass_of_shape {o o' : Object} (h : o.shape = o'.shape) :
    o.receiverClass = o'.receiverClass := by
  cases o with
  | ofInstance i =>
      cases o' with
      | ofInstance i' => exact Sum.inl.inj h
      | ofArray a' => cases h
  | ofArray a =>
      cases o' with
      | ofInstance i' => cases h
      | ofArray a' =>
          have hcls : a.cls = a'.cls := congrArg Prod.fst (Sum.inr.inj h)
          exact congrArg ArrayClass.parent hcls

namespace Machine

variable {m m' : Machine} {c : Class}

def HasClass (m : Machine) (c : Class) : Prop :=
  m.class? c.name = some c

def HasMethod (m : Machine) (method : Method) : Prop :=
  ∃ c, m.HasClass c ∧ method ∈ c.methods

/-- What a registered class leads to belongs to registered classes too. -/
structure Closed (m : Machine) : Prop where
  parent : ∀ {c p}, m.HasClass c → c.parent = some p → m.HasClass p
  method : ∀ {c name descriptor method}, m.HasClass c → c.method? name descriptor = some method →
    m.HasMethod method
  static : ∀ {c name descriptor f}, m.HasClass c → c.staticField name descriptor = .ok f →
    ∃ d, m.HasClass d ∧ f ∈ d.staticFields ∧ f.owner = d.name
  owner : ∀ {c method}, m.HasClass c → method ∈ c.methods → method.owner = c.name
  pool : ∀ {c}, m.HasClass c → ∃ pool, m.pool? c.name = some pool

/-- Whatever the machine holds belongs to registered classes. -/
structure Grounded (m : Machine) : Prop where
  /-- Each static field has a value. -/
  statics : ∀ e ∈ m.classes, e.statics.length = e.cls.staticFields.length
  arrays : ∀ e ∈ m.arrays, m.HasClass e.cls.parent
  resolved : ∀ r ∈ m.resolved, m.HasClass r.2
  objects : ∀ o ∈ m.objects, m.HasClass o.receiverClass

theorem Grounded.empty : Grounded Machine.empty :=
  ⟨nofun, nofun, nofun, by simp [Machine.empty]⟩

/-!
# Calls and static fields
-/

theorem HasClass.registration? (h : m.HasClass c) :
    ∃ e, m.registration? c.name = some e ∧ e.cls = c :=
  Option.map_eq_some_iff.mp h

theorem Closed.frameFor (h : m.Closed) {method : Method} (hmethod : m.HasMethod method)
    (arguments : List Slot) :
    ∃ frame, Thread.frameFor m method arguments = .ok frame ∧ m.HasClass frame.cls := by
  obtain ⟨c, hc, hmem⟩ := hmethod
  obtain ⟨pool, hpool⟩ := h.pool hc
  have hclass : m.class? method.owner = some c := by
    rw [h.owner hc hmem]
    exact hc
  refine ⟨.enter method c ⟨c.name, pool⟩ arguments, ?_, hc⟩
  simp only [Thread.frameFor, hclass, hpool]

theorem Closed.static? (h : m.Closed) (hm : m.Grounded) {name descriptor : String} {f : Field}
    (hc : m.HasClass c) (hf : c.staticField name descriptor = .ok f) :
    ∃ value, m.static? f = some value := by
  obtain ⟨d, hd, hmem, howner⟩ := h.static hc hf
  obtain ⟨e, he, rfl⟩ := hd.registration?
  have hfound : (staticPosition? e f).isSome := by
    rw [staticPosition?, List.findIdx?_isSome, List.any_eq_true]
    exact ⟨f, hmem, by simp [Field.isNamed]⟩
  obtain ⟨position, hposition⟩ := Option.isSome_iff_exists.mp hfound
  have hlt : position < e.statics.length := by
    rw [hm.statics e (mem_of_registration? he).1]
    exact (List.findIdx?_eq_some_iff_getElem.mp hposition).choose
  refine ⟨e.statics[position], ?_⟩
  unfold Machine.static?
  rw [howner, he]
  simp only [Option.bind_eq_bind, Option.bind_some, hposition]
  exact List.getElem?_eq_getElem hlt

/-!
# Changes that keep a machine grounded
-/

theorem Grounded.congr (h : m.Grounded) (hclasses : m'.classes = m.classes)
    (harrays : m'.arrays = m.arrays) (hresolved : m'.resolved = m.resolved)
    (hobjects : m'.objects = m.objects) : m'.Grounded := by
  have hhas (c : Class) (hc : m.HasClass c) : m'.HasClass c := by
    unfold HasClass class? Machine.registration? at hc ⊢
    rw [hclasses, hc]
  refine ⟨?_, ?_, ?_, ?_⟩
  · rw [hclasses]
    exact h.statics
  · rw [harrays]
    exact fun e he => hhas _ (h.arrays e he)
  · rw [hresolved]
    exact fun r hr => hhas _ (h.resolved r hr)
  · rw [hobjects]
    exact fun o ho => hhas _ (h.objects o ho)

theorem Grounded.push (h : m.Grounded) {o : Object} (ho : m.HasClass o.receiverClass) :
    Grounded { m with objects := m.objects.push o } := by
  refine ⟨h.statics, h.arrays, h.resolved, ?_⟩
  intro o' ho'
  rcases Array.mem_push.mp ho' with ho' | rfl
  · exact h.objects o' ho'
  · exact ho

theorem Grounded.put (h : m.Grounded) {address : Nat} {old o : Object}
    (hold : m.objects[address]? = some old) (hshape : o.shape = old.shape) :
    Grounded { m with objects := m.objects.setIfInBounds address o } := by
  refine ⟨h.statics, h.arrays, h.resolved, ?_⟩
  intro o' ho'
  rcases Array.mem_or_eq_of_mem_setIfInBounds ho' with ho' | rfl
  · exact h.objects o' ho'
  · have hclass := h.objects old (Array.mem_of_getElem? hold)
    rw [← Object.receiverClass_of_shape hshape] at hclass
    exact hclass

theorem Grounded.mapArrays (h : m.Grounded) {f : ArrayEntry → ArrayEntry}
    (hf : ∀ e, (f e).cls = e.cls) : Grounded { m with arrays := m.arrays.map f } := by
  refine ⟨h.statics, ?_, h.resolved, h.objects⟩
  intro e he
  obtain ⟨e', he', rfl⟩ := List.mem_map.mp he
  rw [hf]
  exact h.arrays e' he'

theorem class?_modifyEntry (m : Machine) (name : String) {f : Entry → Entry}
    (hf : ∀ e, (f e).cls = e.cls) (n : String) :
    (m.modifyEntry name f).class? n = m.class? n := by
  have hcls (e : Entry) : (if e.cls.name == name then f e else e).cls = e.cls := by
    split
    · exact hf e
    · rfl
  unfold class? Machine.registration? modifyEntry
  rw [List.find?_map, Option.map_map]
  simp only [Function.comp_def, hcls]

theorem Grounded.modifyEntry (h : m.Grounded) (name : String) {f : Entry → Entry}
    (hf : ∀ e, (f e).cls = e.cls) (hstatics : ∀ e, (f e).statics.length = e.statics.length) :
    (m.modifyEntry name f).Grounded := by
  have hhas (c : Class) (hc : m.HasClass c) : (m.modifyEntry name f).HasClass c :=
    (class?_modifyEntry m name hf c.name).trans hc
  refine ⟨?_, fun e he => hhas _ (h.arrays e he), fun r hr => hhas _ (h.resolved r hr),
    fun o ho => hhas _ (h.objects o ho)⟩
  intro e he
  obtain ⟨e', he', rfl⟩ := List.mem_map.mp he
  split
  · rw [hf, hstatics]
    exact h.statics e' he'
  · exact h.statics e' he'

theorem Grounded.setStaticAt (h : m.Grounded) (owner : String) (position : Nat) (value : Value) :
    (m.setStaticAt owner position value).Grounded :=
  h.modifyEntry owner (fun _ => rfl) fun _ => List.length_set

theorem Grounded.setStatic (h : m.Grounded) (f : Field) (value : Value) :
    (m.setStatic f value).Grounded := by
  unfold Machine.setStatic
  split
  · exact h.setStaticAt _ _ _
  · exact h

theorem setStatic_objects (m : Machine) (f : Field) (value : Value) :
    (m.setStatic f value).objects = m.objects := by
  unfold Machine.setStatic
  split
  · rfl
  · rfl

end Machine
end Bytecode
