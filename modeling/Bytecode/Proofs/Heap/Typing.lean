import Bytecode.Machine.Creation
import Mathlib.Algebra.Group.Nat.Defs
import Mathlib.Data.List.Forall2
import Mathlib.Data.List.Nodup

/-!
# Typing of the heap

Static fields, the fields of instances and the elements of arrays hold values of the kind that
their descriptors say.  Each change that a program can make to one of them keeps this, and no object
ever changes its class or its size.
-/

namespace Bytecode

/-!
# Fields
-/

namespace Field

def Holds (f : Field) (value : Value) : Prop :=
  ∃ type, Descriptor.fieldType f.descriptor = .ok type ∧ type.kind? = some value.kind

def Honest (f : Field) : Prop :=
  Descriptor.fieldType f.descriptor = .ok f.type

theorem Honest.holds {f : Field} {value : Value} (h : f.Honest)
    (hkind : f.type.kind? = some value.kind) : f.Holds value :=
  ⟨f.type, h, hkind⟩

theorem Holds.congr {f g : Field} {value : Value} (h : f.Holds value)
    (hdescriptor : g.descriptor = f.descriptor) : g.Holds value := by
  rcases h with ⟨type, htype, hkind⟩
  refine ⟨type, ?_, hkind⟩
  rw [hdescriptor, htype]

end Field

theorem Descriptor.kind_of_fieldType {descriptor : String} {type : ValueType}
    (h : fieldType descriptor = .ok type) : ∃ kind, type.kind? = some kind := by
  have hvoid : type ≠ .void := by
    unfold fieldType at h
    split at h
    · cases h
    · split at h
      · cases h
      next hrest =>
          cases h
          exact fun hvoid => hrest (.inr hvoid)
  cases type with
  | void => exact absurd rfl hvoid
  | _ => exact ⟨_, rfl⟩

theorem Value.kind_zero (kind : Kind) : (Value.zero kind).kind = kind := by
  cases kind <;> rfl

theorem Field.Honest.default {f : Field} (h : f.Honest) : f.Holds (Value.default f.type) := by
  obtain ⟨kind, hkind⟩ := Descriptor.kind_of_fieldType h
  apply h.holds
  unfold Value.default
  rw [hkind, Value.kind_zero]

/-!
# Rows of values
-/

theorem forall₂_set {α β : Type} {R : α → β → Prop} {as : List α} {bs : List β}
    (h : List.Forall₂ R as bs) {position : Nat} {b : β}
    (hb : ∀ a, as[position]? = some a → R a b) : List.Forall₂ R as (bs.set position b) := by
  induction h generalizing position with
  | nil => exact .nil
  | cons hab h ih =>
      cases position with
      | zero => exact .cons (hb _ rfl) h
      | succ position => exact .cons hab (ih hb)

theorem forall₂_getElem? {α β : Type} {R : α → β → Prop} {as : List α} {bs : List β}
    (h : List.Forall₂ R as bs) {position : Nat} {a : α} (ha : as[position]? = some a) :
    ∃ b, bs[position]? = some b ∧ R a b := by
  induction h generalizing position with
  | nil => cases ha
  | cons hab h ih =>
      cases position with
      | zero =>
          cases ha
          exact ⟨_, rfl, hab⟩
      | succ position => exact ih ha

theorem forall₂_defaults {fields : List Field} (h : ∀ f ∈ fields, f.Honest) :
    List.Forall₂ Field.Holds fields (fields.map fun f => Value.default f.type) := by
  induction fields with
  | nil => exact .nil
  | cons f fields ih =>
      apply List.Forall₂.cons
      · exact (h f List.mem_cons_self).default
      · exact ih fun g hg => h g (List.mem_cons_of_mem f hg)

/-!
# Classes
-/

namespace Class

/-- Every field of the class and of its supertypes has the type that its descriptor says. -/
inductive Honest : Class → Prop where
  | mk {d : Declarations} {parent : Option Class} {interfaces : List Class}
      (hstatic : ∀ f ∈ d.staticFields, f.Honest) (hinstance : ∀ f ∈ d.instanceFields, f.Honest)
      (hparent : ∀ p, parent = some p → Honest p) (hinterfaces : ∀ i ∈ interfaces, Honest i) :
      Honest (.mk d parent interfaces)

theorem Honest.staticFields {c : Class} (h : c.Honest) : ∀ f ∈ c.staticFields, f.Honest := by
  cases h with
  | mk hstatic => exact hstatic

theorem Honest.instanceFields {c : Class} (h : c.Honest) : ∀ f ∈ c.instanceFields, f.Honest := by
  cases h with
  | mk _ hinstance => exact hinstance

theorem Honest.ancestors {c : Class} (h : c.Honest) : ∀ a ∈ c.ancestors, a.Honest := by
  induction h with
  | @mk d parent interfaces hstatic hinstance hparent hinterfaces ihparent _ =>
      intro a ha
      cases parent with
      | none =>
          rw [Class.ancestors, List.mem_singleton] at ha
          rw [ha]
          exact .mk hstatic hinstance hparent hinterfaces
      | some p =>
          rw [Class.ancestors, List.mem_cons] at ha
          rcases ha with rfl | ha
          · exact .mk hstatic hinstance hparent hinterfaces
          · exact ihparent p rfl a ha

theorem honest_of_mem_withSuperinterfaces {interfaces : List Class}
    (h : ∀ i ∈ interfaces, i.Honest ∧ ∀ a ∈ i.superinterfaces, a.Honest) :
    ∀ a ∈ withSuperinterfaces interfaces, a.Honest := by
  induction interfaces with
  | nil =>
      intro a ha
      rw [withSuperinterfaces] at ha
      cases ha
  | cons i interfaces ih =>
      intro a ha
      rw [withSuperinterfaces, List.mem_cons, List.mem_append] at ha
      rcases ha with rfl | ha | ha
      · exact (h a List.mem_cons_self).1
      · exact (h i List.mem_cons_self).2 a ha
      · exact ih (fun i' hi' => h i' (List.mem_cons_of_mem i hi')) a ha

theorem Honest.superinterfaces {c : Class} (h : c.Honest) :
    ∀ a ∈ c.superinterfaces, a.Honest := by
  induction h with
  | @mk d parent interfaces _ _ hparent hinterfaces ihparent ihinterfaces =>
      intro a ha
      rw [Class.superinterfaces, List.mem_append] at ha
      rcases ha with ha | ha
      · exact honest_of_mem_withSuperinterfaces
          (fun i hi => ⟨hinterfaces i hi, ihinterfaces i hi⟩) a ha
      · cases parent with
        | none =>
            rw [parentSuperinterfaces] at ha
            cases ha
        | some p =>
            rw [parentSuperinterfaces] at ha
            exact ihparent p rfl a ha

theorem Honest.layout {c : Class} (h : c.Honest) : ∀ f ∈ c.layout, f.Honest := by
  intro f hf
  rcases List.mem_flatMap.mp hf with ⟨a, ha, hf⟩
  exact (h.ancestors a ha).instanceFields f hf

theorem Honest.chainStatic? {c : Class} (h : c.Honest) {name descriptor : String} {f : Field}
    (hf : c.chainStatic? name descriptor = some f) : f.Honest ∧ f.descriptor = descriptor := by
  rcases List.exists_of_findSome?_eq_some hf with ⟨a, ha, hfind⟩
  have hnamed := List.find?_some hfind
  rw [Field.isNamed, Bool.and_eq_true, beq_iff_eq, beq_iff_eq] at hnamed
  exact ⟨(h.ancestors a ha).staticFields f (List.mem_of_find?_eq_some hfind), hnamed.2⟩

theorem Honest.staticField {c : Class} (h : c.Honest) {name descriptor : String} {f : Field}
    (hf : c.staticField name descriptor = .ok f) : f.Honest ∧ f.descriptor = descriptor := by
  unfold Class.staticField at hf
  split at hf
  next hchain =>
      cases hf
      exact h.chainStatic? hchain
  next =>
      split at hf
      next hinterface =>
          cases hf
          rcases List.exists_of_findSome?_eq_some hinterface with ⟨i, hi, hchain⟩
          exact (h.superinterfaces i hi).chainStatic? hchain
      next => cases hf

theorem chainFrom_suffix (c : Class) (owner : String) : c.chainFrom owner <:+ c.ancestors := by
  unfold chainFrom
  split
  · exact List.suffix_rfl
  next => exact List.dropWhile_suffix _

theorem fieldPosition_eq_ok {c : Class} {owner name descriptor : String} {position : Nat}
    (h : c.fieldPosition owner name descriptor = .ok position) :
    ∃ f, c.layout[position]? = some f ∧ f.descriptor = descriptor := by
  unfold fieldPosition at h
  dsimp only at h
  rcases c.chainFrom_suffix owner with ⟨front, hsplit⟩
  have hlayout : c.layout = front.flatMap instanceFields ++
      (c.chainFrom owner).flatMap instanceFields := by
    rw [layout, ← hsplit, List.flatMap_append]
  split at h
  next i hfind =>
      cases h
      rcases List.findIdx?_eq_some_iff_getElem.mp hfind with ⟨hi, hnamed, -⟩
      rw [Field.isNamed, Bool.and_eq_true, beq_iff_eq, beq_iff_eq] at hnamed
      refine ⟨_, ?_, hnamed.2⟩
      rw [hlayout, List.length_append, Nat.add_sub_cancel,
        List.getElem?_append_right (Nat.le_add_right _ _), Nat.add_sub_cancel_left]
      exact List.getElem?_eq_getElem hi
  next => cases h

end Class

/-!
# Stores
-/

namespace Layout

theorem narrowInt_narrowInt (l : Layout) (value : Int32) :
    l.narrowInt (l.narrowInt value) = l.narrowInt value := by
  cases l <;> simp [narrowInt, UInt32.and_assoc]

theorem narrow_int {l : Layout} (hkind : Kind.int = l.kind) (value : Int32) :
    l.narrow (.int value) = .ok (.int (l.narrowInt value)) :=
  if_pos hkind

theorem narrow_eq_ok {l : Layout} {value kept : Value} (h : l.narrow value = .ok kept) :
    l.narrow kept = .ok kept := by
  by_cases hkind : value.kind = l.kind
  · cases value with
    | int i =>
        rw [narrow_int hkind] at h
        cases h
        rw [narrow_int hkind, l.narrowInt_narrowInt]
    | _ =>
        have hsame : l.narrow _ = .ok _ := if_pos hkind
        rw [hsame] at h
        cases h
        exact hsame
  · have herror : l.narrow value = .error _ := if_neg hkind
    rw [herror] at h
    cases h

theorem narrow_zero (l : Layout) : l.narrow (Value.zero l.kind) = .ok (Value.zero l.kind) := by
  cases l <;> rfl

end Layout

namespace Store

/-- Every element is one that the width of the elements can hold. -/
def Sound (s : Store) : Prop :=
  ∀ value ∈ s.items, s.layout.narrow value = .ok value

theorem zeroed_sound (element : Element) (length : Nat) : (zeroed element length).Sound := by
  intro value hvalue
  rw [Array.eq_of_mem_replicate hvalue]
  exact element.layout.narrow_zero

theorem ofUnits_sound (units : List UInt16) : (ofUnits units).Sound := by
  intro value hvalue
  simp only [ofUnits, List.mem_toArray, List.mem_map] at hvalue
  obtain ⟨u, -, rfl⟩ := hvalue
  have hmask : u.toUInt32 &&& 0xFFFF = u.toUInt32 := by
    apply UInt32.toNat_inj.mp
    have hlow : u.toNat &&& 0xFFFF = u.toNat % 2 ^ 16 := Nat.and_two_pow_sub_one_eq_mod _ 16
    simp [hlow]
  show Except.ok (Value.int (Layout.chars.narrowInt u.toUInt32.toInt32)) = _
  simp [Layout.narrowInt, hmask]

theorem ofBytes_sound (bytes : List UInt8) : (ofBytes bytes).Sound := by
  intro value hvalue
  simp only [ofBytes, List.mem_toArray, List.mem_map] at hvalue
  obtain ⟨b, -, rfl⟩ := hvalue
  show Except.ok (Value.int (Layout.bytes.narrowInt b.toInt8.toInt32)) = _
  simp [Layout.narrowInt]

theorem store_eq_ok {s s' : Store} {index : Int32} {value : Value}
    (h : s.store index value = .ok s') :
    ∃ i kept, s.layout.narrow value = .ok kept ∧
      s' = { s with items := s.items.setIfInBounds i kept } := by
  unfold Store.store at h
  cases hposition : s.position index with
  | error f =>
      rw [hposition] at h
      cases h
  | ok i =>
      cases hnarrow : s.layout.narrow value with
      | error f =>
          rw [hposition, hnarrow] at h
          cases h
      | ok kept =>
          rw [hposition, hnarrow] at h
          cases h
          exact ⟨i, kept, rfl, rfl⟩

theorem size_of_store {s s' : Store} {index : Int32} {value : Value}
    (h : s.store index value = .ok s') : s'.size = s.size := by
  obtain ⟨i, kept, -, rfl⟩ := store_eq_ok h
  exact Array.size_setIfInBounds

theorem Sound.store {s s' : Store} (h : s.Sound) {index : Int32} {value : Value}
    (hstore : s.store index value = .ok s') :
    s'.Sound ∧ s'.layout = s.layout ∧ s'.size = s.size := by
  have hsize := size_of_store hstore
  obtain ⟨i, kept, hnarrow, rfl⟩ := store_eq_ok hstore
  refine ⟨?_, rfl, hsize⟩
  intro v hv
  rcases Array.mem_or_eq_of_mem_setIfInBounds hv with hv | rfl
  · exact h v hv
  · exact Layout.narrow_eq_ok hnarrow

theorem mem_of_mem_extract {items : Array Value} {start stop : Nat} {value : Value}
    (h : value ∈ items.extract start stop) : value ∈ items := by
  obtain ⟨k, hk, rfl⟩ := Array.mem_extract_iff_getElem.mp h
  exact Array.getElem_mem _

theorem copyInto_eq_ok {source target result : Store} {sourceStart targetStart length : Int32}
    (h : source.copyInto target sourceStart targetStart length = .ok (some result)) :
    ∃ start place count, start + count ≤ source.size ∧ place + count ≤ target.size ∧
      source.layout = target.layout ∧
        result = { target with items := splice target.items source.items start place count } := by
  unfold Store.copyInto at h
  dsimp only at h
  split at h
  · cases h
  split at h
  · cases h
  next hfitsSource =>
  split at h
  · cases h
  next hfitsTarget =>
  split at h
  next hlayout =>
      cases h
      exact ⟨_, _, _, Nat.le_of_not_lt hfitsSource, Nat.le_of_not_lt hfitsTarget, hlayout, rfl⟩
  next => cases h

theorem size_of_copyInto {source target result : Store} {sourceStart targetStart length : Int32}
    (h : source.copyInto target sourceStart targetStart length = .ok (some result)) :
    result.size = target.size := by
  obtain ⟨start, place, count, hsource, htarget, -, rfl⟩ := copyInto_eq_ok h
  simp only [Store.size] at hsource htarget ⊢
  simp only [splice, Array.size_append, Array.size_extract]
  omega

theorem Sound.copyInto {source target result : Store} (hsource : source.Sound)
    (htarget : target.Sound) {sourceStart targetStart length : Int32}
    (h : source.copyInto target sourceStart targetStart length = .ok (some result)) :
    result.Sound ∧ result.layout = target.layout ∧ result.size = target.size := by
  have hsize := size_of_copyInto h
  obtain ⟨start, place, count, -, -, hlayout, rfl⟩ := copyInto_eq_ok h
  refine ⟨?_, rfl, hsize⟩
  intro value hvalue
  simp only [splice, Array.mem_append] at hvalue
  rcases hvalue with (hvalue | hvalue) | hvalue
  · exact htarget value (mem_of_mem_extract hvalue)
  · have hkept := hsource value (mem_of_mem_extract hvalue)
    rw [hlayout] at hkept
    exact hkept
  · exact htarget value (mem_of_mem_extract hvalue)

end Store

/-!
# Objects
-/

def ArrayClass.Honest (a : ArrayClass) : Prop :=
  Descriptor.elementOf a.name = .ok a.element

/-- Every field of the instance, at every level, holds a value of its kind. -/
def Instance.Typed (i : Instance) : Prop :=
  i.cls.Honest ∧ List.Forall₂ Field.Holds i.cls.layout i.values

/-- Elements are kept in the way that the class of the array says. -/
def ArrayObject.Typed (a : ArrayObject) : Prop :=
  a.cls.Honest ∧ a.store.layout = a.cls.element.layout ∧ a.store.Sound

namespace Object

def Typed : Object → Prop
  | ofInstance i => i.Typed
  | ofArray a => a.Typed

/-- What never changes about an object: its class, and the number of elements of an array. -/
def shape : Object → Class ⊕ ArrayClass × Nat
  | ofInstance i => .inl i.cls
  | ofArray a => .inr (a.cls, a.store.size)

end Object

theorem Instance.ofClass_typed {c : Class} (h : c.Honest) : (Instance.ofClass c).Typed :=
  ⟨h, forall₂_defaults h.layout⟩

theorem Instance.Typed.setValue {i : Instance} (h : i.Typed) {position : Nat} {value : Value}
    (hvalue : ∀ f, i.cls.layout[position]? = some f → f.Holds value) :
    (i.setValue position value).Typed :=
  ⟨h.1, forall₂_set h.2 hvalue⟩

/-- A value put where a field reference leads has the kind that the reference says. -/
theorem Instance.Typed.putAt {i : Instance} (h : i.Typed) {owner name descriptor : String}
    {position : Nat} (hposition : i.cls.fieldPosition owner name descriptor = .ok position)
    {type : ValueType} (htype : Descriptor.fieldType descriptor = .ok type) {value : Value}
    (hkind : type.kind? = some value.kind) : (i.setValue position value).Typed := by
  obtain ⟨f, hf, hdescriptor⟩ := Class.fieldPosition_eq_ok hposition
  apply h.setValue
  intro g hg
  rw [hf] at hg
  cases hg
  exact ⟨type, by rw [hdescriptor, htype], hkind⟩

theorem Instance.Typed.kind_value {i : Instance} (h : i.Typed) {owner name descriptor : String}
    {position : Nat} (hposition : i.cls.fieldPosition owner name descriptor = .ok position) :
    ∃ type, Descriptor.fieldType descriptor = .ok type ∧
      type.kind? = some (i.value position).kind := by
  obtain ⟨f, hf, hdescriptor⟩ := Class.fieldPosition_eq_ok hposition
  obtain ⟨value, hvalue, type, htype, hkind⟩ := forall₂_getElem? h.2 hf
  refine ⟨type, ?_, ?_⟩
  · rw [← hdescriptor, htype]
  · rw [hkind, Instance.value, List.getD_eq_getElem?_getD, hvalue]
    rfl

/-!
# Texts
-/

theorem ArrayClass.Honest.element_eq {cls : ArrayClass} (h : cls.Honest) {element : Element}
    (helement : Descriptor.elementOf cls.name = .ok element) : cls.element = element := by
  have hsame := h.symm.trans helement
  cases hsame
  rfl

/-- The contents of a text are those of an array of the type that the `value` field names. -/
theorem encodeText_typed {descriptor : String} {units : List UInt16} {store : Store}
    {coding : Option Machine.Coding}
    (h : Machine.encodeText descriptor units = .ok (store, coding)) :
    Descriptor.fieldType descriptor = .ok .reference ∧
      ∀ cls : ArrayClass, cls.Honest → cls.name = descriptor → ArrayObject.Typed ⟨cls, store⟩ := by
  have hbytes (cls : ArrayClass) (hhonest : cls.Honest) (hname : cls.name = "[B")
      (bytes : List UInt8) : ArrayObject.Typed ⟨cls, Store.ofBytes bytes⟩ := by
    have helement : cls.element = .byte := hhonest.element_eq (by rw [hname]; rfl)
    refine ⟨hhonest, ?_, Store.ofBytes_sound bytes⟩
    rw [helement]
    rfl
  unfold Machine.encodeText at h
  split at h
  next hchars =>
      cases h
      subst hchars
      refine ⟨rfl, ?_⟩
      intro cls hhonest hname
      have helement : cls.element = .char := hhonest.element_eq (by rw [hname]; rfl)
      refine ⟨hhonest, ?_, Store.ofUnits_sound units⟩
      rw [helement]
      rfl
  next =>
      split at h
      next hdescriptor =>
          subst hdescriptor
          refine ⟨rfl, ?_⟩
          intro cls hhonest hname
          split at h
          · cases h
            exact hbytes cls hhonest hname _
          · cases h
            exact hbytes cls hhonest hname _
      next => cases h

theorem putIfPresent_typed {i : Instance} (h : i.Typed) {name descriptor : String}
    {type : ValueType} (htype : Descriptor.fieldType descriptor = .ok type) {value : Value}
    (hkind : type.kind? = some value.kind) :
    (Machine.putIfPresent i name descriptor value).Typed := by
  unfold Machine.putIfPresent
  split
  next hposition => exact h.putAt hposition htype hkind
  next => exact h

/-!
# Machines
-/

def Entry.Typed (e : Entry) : Prop :=
  e.cls.Honest ∧ List.Forall₂ Field.Holds e.cls.staticFields e.statics

theorem Entry.ofClass_typed {c : Class} (h : c.Honest) : (Entry.ofClass c).Typed :=
  ⟨h, forall₂_defaults h.staticFields⟩

namespace Machine

/-- Everything that a program can store in holds values of its kind. -/
structure Sound (m : Machine) : Prop where
  classes : ∀ e ∈ m.classes, e.Typed
  arrays : ∀ e ∈ m.arrays, e.cls.Honest
  resolved : ∀ r ∈ m.resolved, r.2.Honest
  objects : ∀ o ∈ m.objects, o.Typed

def Grows (m m' : Machine) : Prop :=
  ∀ (address : Nat) (o : Object), m.objects[address]? = some o →
    ∃ o', m'.objects[address]? = some o' ∧ o'.shape = o.shape

theorem Grows.of_eq {m m' : Machine} (h : m'.objects = m.objects) : Grows m m' := by
  intro address o ho
  rw [h]
  exact ⟨o, ho, rfl⟩

theorem Grows.trans {a b c : Machine} (h : Grows a b) (h' : Grows b c) : Grows a c := by
  intro address o ho
  obtain ⟨o₁, ho₁, hshape₁⟩ := h address o ho
  obtain ⟨o₂, ho₂, hshape₂⟩ := h' address o₁ ho₁
  exact ⟨o₂, ho₂, hshape₂.trans hshape₁⟩

theorem Sound.empty : Sound Machine.empty :=
  ⟨nofun, nofun, nofun, by simp [Machine.empty]⟩

section

variable {m : Machine}

theorem Sound.addArray (h : m.Sound) (cls : ArrayClass) (hcls : cls.Honest) :
    Sound { m with arrays := m.arrays ++ [⟨cls, none⟩] } := by
  refine ⟨h.classes, ?_, h.resolved, h.objects⟩
  intro e he
  rcases List.mem_append.mp he with he | he
  · exact h.arrays e he
  · rw [List.mem_singleton.mp he]
    exact hcls

theorem Grows.push (o : Object) : Grows m { m with objects := m.objects.push o } := by
  intro address o' ho'
  refine ⟨o', ?_, rfl⟩
  have hlt : address < m.objects.size := by
    by_contra hge
    rw [Array.getElem?_eq_none (Nat.le_of_not_lt hge)] at ho'
    cases ho'
  rw [Array.getElem?_push, if_neg (Nat.ne_of_lt hlt), ho']

theorem Sound.push (h : m.Sound) {o : Object} (ho : o.Typed) :
    Sound { m with objects := m.objects.push o } ∧
      Grows m { m with objects := m.objects.push o } := by
  refine ⟨⟨h.classes, h.arrays, h.resolved, ?_⟩, Grows.push o⟩
  intro o' ho'
  rcases Array.mem_push.mp ho' with ho' | rfl
  · exact h.objects o' ho'
  · exact ho

theorem Grows.put {address : Nat} {old o : Object} (hold : m.objects[address]? = some old)
    (hshape : o.shape = old.shape) :
    Grows m { m with objects := m.objects.setIfInBounds address o } := by
  intro address' o' ho'
  by_cases heq : address = address'
  · subst heq
    rw [hold] at ho'
    cases ho'
    have hlt : address < m.objects.size := by
      by_contra hge
      rw [Array.getElem?_eq_none (Nat.le_of_not_lt hge)] at hold
      cases hold
    refine ⟨o, ?_, hshape⟩
    rw [Array.getElem?_setIfInBounds, if_pos rfl, if_pos hlt]
  · refine ⟨o', ?_, rfl⟩
    rw [Array.getElem?_setIfInBounds, if_neg heq, ho']

theorem Sound.put (h : m.Sound) {address : Nat} {old o : Object} (ho : o.Typed)
    (hold : m.objects[address]? = some old) (hshape : o.shape = old.shape) :
    Sound { m with objects := m.objects.setIfInBounds address o } ∧
      Grows m { m with objects := m.objects.setIfInBounds address o } := by
  refine ⟨⟨h.classes, h.arrays, h.resolved, ?_⟩, Grows.put hold hshape⟩
  intro o' ho'
  rcases Array.mem_or_eq_of_mem_setIfInBounds ho' with ho' | rfl
  · exact h.objects o' ho'
  · exact ho

theorem Sound.modifyEntry (h : m.Sound) (name : String) {f : Entry → Entry}
    (hf : ∀ e ∈ m.classes, e.cls.name = name → (f e).Typed) : (m.modifyEntry name f).Sound := by
  refine ⟨?_, h.arrays, h.resolved, h.objects⟩
  intro e he
  rcases List.mem_map.mp he with ⟨e', he', rfl⟩
  split
  next hname => exact hf e' he' (beq_iff_eq.mp hname)
  next => exact h.classes e' he'

theorem Sound.setStaticAt (h : m.Sound) {owner : String} {position : Nat} {value : Value}
    (hvalue : ∀ e ∈ m.classes, e.cls.name = owner →
      ∀ f, e.cls.staticFields[position]? = some f → f.Holds value) :
    (m.setStaticAt owner position value).Sound := by
  apply h.modifyEntry owner
  intro e he hname
  rcases h.classes e he with ⟨hhonest, hrow⟩
  exact ⟨hhonest, forall₂_set hrow (hvalue e he hname)⟩

theorem mem_of_registration? {name : String} {e : Entry} (h : m.registration? name = some e) :
    e ∈ m.classes ∧ e.cls.name = name :=
  ⟨List.mem_of_find?_eq_some h, by simpa using List.find?_some h⟩

theorem staticPosition?_eq_some {e : Entry} {f : Field} {position : Nat}
    (h : staticPosition? e f = some position) :
    ∃ g, e.cls.staticFields[position]? = some g ∧ g.descriptor = f.descriptor := by
  rcases List.findIdx?_eq_some_iff_getElem.mp h with ⟨hlt, hnamed, -⟩
  rw [Field.isNamed, Bool.and_eq_true, beq_iff_eq, beq_iff_eq] at hnamed
  exact ⟨_, List.getElem?_eq_getElem hlt, hnamed.2⟩

theorem eq_of_registration? {name : String} {e e' : Entry}
    (hnames : (m.classes.map fun e => e.cls.name).Nodup) (h : m.registration? name = some e)
    (hmem : e' ∈ m.classes) (hname : e'.cls.name = name) : e' = e := by
  rcases mem_of_registration? h with ⟨hmem', hname'⟩
  exact List.inj_on_of_nodup_map hnames hmem hmem' (hname.trans hname'.symm)

theorem Sound.setStatic (h : m.Sound) (hnames : (m.classes.map fun e => e.cls.name).Nodup)
    {f : Field} {value : Value} (hvalue : f.Holds value) :
    (m.setStatic f value).Sound ∧ Grows m (m.setStatic f value) := by
  unfold Machine.setStatic
  split
  next position hposition =>
      refine ⟨h.setStaticAt ?_, Grows.of_eq rfl⟩
      rcases Option.bind_eq_some_iff.mp hposition with ⟨e, he, hfound⟩
      obtain ⟨g, hg, hdescriptor⟩ := staticPosition?_eq_some hfound
      intro e' he' hname f' hf'
      rw [eq_of_registration? hnames he he' hname, hg] at hf'
      cases hf'
      exact hvalue.congr hdescriptor
  next => exact ⟨h, Grows.of_eq rfl⟩

theorem Sound.kind_static? (h : m.Sound) {f : Field} {value : Value}
    (hvalue : m.static? f = some value) : f.Holds value := by
  unfold static? at hvalue
  rcases Option.bind_eq_some_iff.mp hvalue with ⟨e, he, hvalue⟩
  rcases Option.bind_eq_some_iff.mp hvalue with ⟨position, hposition, hvalue⟩
  obtain ⟨g, hg, hdescriptor⟩ := staticPosition?_eq_some hposition
  have hrow := (h.classes e (mem_of_registration? he).1).2
  obtain ⟨held, hheld, hholds⟩ := forall₂_getElem? hrow hg
  rw [hvalue] at hheld
  cases hheld
  exact hholds.congr hdescriptor.symm

end

end Machine
end Bytecode
