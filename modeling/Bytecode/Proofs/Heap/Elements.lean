import Bytecode.Proofs.History.Heap
import Mathlib.Algebra.Ring.Int.Defs

/-!
# Elements of arrays

What loading, storing and copying do with the elements of arrays: which of these requests succeed,
what they leave in the arrays, and that one that fails changes nothing.  A copy takes the elements
that the source has before it, also where source and target are the same array.
-/

namespace Bytecode

open Machine

/-!
# What an element keeps
-/

theorem toInt_eq_bmod (i : Int32) : i.toInt = (i.toUInt32.toNat : Int).bmod (2 ^ 32) :=
  BitVec.toInt_eq_toNat_bmod i.toBitVec

namespace Element

/-- The number that an element keeps of another one: as many of the low bits as the element has,
those of a character without a sign. -/
def reduce (e : Element) (n : Int) : Int :=
  if e = .char then n % 2 ^ (8 * e.width) else n.bmod (2 ^ (8 * e.width))

def keep (e : Element) : Value → Value
  | .int i => .int (Int32.ofInt (e.reduce i.toInt))
  | other => other

theorem narrowInt_signed (n : Int) {bits : Nat} (hbits : bits ≤ 32) :
    (n.bmod (2 ^ bits)).bmod (2 ^ 32) = n.bmod (2 ^ bits) := by
  have hpos : 0 < 2 ^ bits := Nat.two_pow_pos bits
  have hwidth : 2 ^ bits ≤ 2 ^ 32 := Nat.pow_le_pow_right (by decide) hbits
  have hle := Int.le_bmod (x := n) hpos
  have hlt := Int.bmod_lt (x := n) hpos
  apply Int.bmod_eq_of_le
  · omega
  · omega

theorem narrowInt_chars (i : Int32) :
    Layout.chars.narrowInt i = Int32.ofInt (i.toInt % 2 ^ 16) := by
  have hlow : (i.toUInt32 &&& 0xFFFF).toNat = i.toUInt32.toNat % 2 ^ 16 := by
    rw [UInt32.toNat_and]
    exact Nat.and_two_pow_sub_one_eq_mod _ 16
  have hsame : i.toInt % 2 ^ 16 = ((i.toUInt32.toNat % 2 ^ 16 : Nat) : Int) := by
    rw [toInt_eq_bmod, Int.bmod_def]
    split
    · omega
    · omega
  apply Int32.toInt_inj.mp
  rw [Int32.toInt_ofInt, hsame, ← hlow]
  exact toInt_eq_bmod (i.toUInt32 &&& 0xFFFF).toInt32

theorem narrowInt_layout {e : Element} (h : e.layout.kind = .int) (i : Int32) :
    e.layout.narrowInt i = Int32.ofInt (e.reduce i.toInt) := by
  have hbyte : i.toInt8.toInt32 = Int32.ofInt (i.toInt.bmod (2 ^ 8)) := by
    apply Int32.toInt_inj.mp
    rw [Int8.toInt_toInt32, Int32.toInt_toInt8, Int32.toInt_ofInt]
    exact (narrowInt_signed i.toInt (by decide)).symm
  have hshort : i.toInt16.toInt32 = Int32.ofInt (i.toInt.bmod (2 ^ 16)) := by
    apply Int32.toInt_inj.mp
    rw [Int16.toInt_toInt32, Int32.toInt_toInt16, Int32.toInt_ofInt]
    exact (narrowInt_signed i.toInt (by decide)).symm
  have hint : i = Int32.ofInt (i.toInt.bmod (2 ^ 32)) := by
    apply Int32.toInt_inj.mp
    rw [Int32.toInt_ofInt, toInt_eq_bmod, Int.bmod_bmod]
    exact Int.bmod_bmod.symm
  cases e with
  | boolean => exact hbyte
  | byte => exact hbyte
  | char => exact narrowInt_chars i
  | short => exact hshort
  | int => exact hint
  | _ => cases h

theorem narrow_layout {e : Element} {value kept : Value} :
    e.layout.narrow value = .ok kept ↔ value.kind = e.layout.kind ∧ kept = e.keep value := by
  unfold Layout.narrow
  by_cases hkind : value.kind = e.layout.kind
  · rw [if_pos hkind]
    cases value with
    | int i => simp [hkind, keep, narrowInt_layout hkind.symm, eq_comm]
    | _ => simp [hkind, keep, eq_comm]
  · simp [hkind]

/-- Booleans are kept as bytes, and no other two kinds in the same way. -/
theorem layout_eq_iff {d e : Element} :
    d.layout = e.layout ↔ d = e ∨ (d ∈ [boolean, byte] ∧ e ∈ [boolean, byte]) := by
  cases d <;> cases e <;> decide

end Element

/-!
# Contents
-/

namespace Store

variable {s s' : Store} {index : Int32} {value : Value}

theorem position_ok_iff {i : Nat} : s.position index = .ok i ↔ index.toInt = i ∧ i < s.size := by
  unfold position
  have hneg : index < 0 ↔ index.toInt < 0 := Int32.lt_iff_toInt_lt
  simp only [hneg]
  split
  next hout =>
      constructor
      · intro h
        cases h
      · intro h
        omega
  next hin =>
      rw [Except.ok.injEq]
      omega

theorem load_ok_iff :
    s.load index = .ok value ↔ ∃ i : Nat, index.toInt = i ∧ s.items[i]? = some value := by
  have hload {i : Nat} (hi : s.position index = .ok i) :
      s.load index = .ok value ↔ s.items[i]? = some value := by
    unfold load
    rw [hi]
    simp only [bind, Except.bind]
    cases s.items[i]? with
    | some v =>
        rw [Option.some.injEq]
        exact ⟨Except.ok.inj, congrArg Except.ok⟩
    | none => exact ⟨nofun, nofun⟩
  constructor
  · intro h
    cases hposition : s.position index with
    | ok i => exact ⟨i, (position_ok_iff.mp hposition).1, (hload hposition).mp h⟩
    | error f =>
        unfold load at h
        rw [hposition] at h
        cases h
  · intro h
    rcases h with ⟨i, hindex, hvalue⟩
    rcases Array.getElem?_eq_some_iff.mp hvalue with ⟨hi, -⟩
    exact (hload (position_ok_iff.mpr ⟨hindex, hi⟩)).mpr hvalue

theorem store_ok_iff :
    s.store index value = .ok s' ↔
      ∃ (i : Nat) (kept : Value), index.toInt = i ∧ i < s.size ∧ s.layout.narrow value = .ok kept ∧
        s' = { s with items := s.items.setIfInBounds i kept } := by
  constructor
  · intro h
    unfold Store.store at h
    cases hposition : s.position index with
    | error f =>
        rw [hposition] at h
        cases h
    | ok i =>
        cases hnarrow : s.layout.narrow value with
        | error f =>
            rw [hposition, hnarrow] at h
            cases h
        | ok kept =>
            rw [hposition, hnarrow] at h
            cases h
            rcases position_ok_iff.mp hposition with ⟨hindex, hi⟩
            exact ⟨i, kept, hindex, hi, rfl, rfl⟩
  · intro h
    rcases h with ⟨i, kept, hindex, hi, hnarrow, rfl⟩
    unfold Store.store
    rw [position_ok_iff.mpr ⟨hindex, hi⟩, hnarrow]
    rfl

theorem getElem?_splice {items source : Array Value} {start place count : Nat}
    (hsource : start + count ≤ source.size) (hitems : place + count ≤ items.size) (i : Nat) :
    (splice items source start place count)[i]? =
      if place ≤ i ∧ i < place + count then source[start + (i - place)]? else items[i]? := by
  unfold splice
  simp only [Array.getElem?_append, Array.getElem?_extract, Array.size_append, Array.size_extract]
  by_cases hbefore : i < place
  · simp (disch := omega) only [if_pos, if_neg]
    simp
  by_cases hinside : i < place + count
  · simp (disch := omega) only [if_pos, if_neg]
    congr 1
    omega
  · simp (disch := omega) only [if_neg]
    by_cases hend : i < items.size
    · simp (disch := omega) only [if_pos]
      congr 1
      omega
    · rw [if_neg (by omega), Array.getElem?_eq_none (by omega)]

theorem copyInto_ok_iff {source target result : Store} {sourceStart targetStart length : Int32} :
    source.copyInto target sourceStart targetStart length = .ok (some result) ↔
      ∃ start place count : Nat, sourceStart.toInt = start ∧ targetStart.toInt = place ∧
        length.toInt = count ∧ start + count ≤ source.size ∧ place + count ≤ target.size ∧
          source.layout = target.layout ∧
            result =
              { target with items := splice target.items source.items start place count } := by
  have hneg (i : Int32) : i < 0 ↔ i.toInt < 0 := Int32.lt_iff_toInt_lt
  unfold Store.copyInto
  simp only [hneg]
  constructor
  · intro h
    split at h
    · cases h
    split at h
    · cases h
    split at h
    · cases h
    split at h
    next hlayout =>
        cases h
        refine ⟨_, _, _, ?_, ?_, ?_, ?_, ?_, hlayout, rfl⟩
        all_goals omega
    next => cases h
  · intro h
    rcases h with ⟨start, place, count, hstart, hplace, hcount, hsource, htarget, hlayout, rfl⟩
    simp only [hstart, hplace, hcount, Int.toNat_natCast]
    rw [if_neg (by omega), if_neg (by omega), if_neg (by omega), if_pos hlayout]

end Store

/-!
# Requests that fail
-/

section

variable {α β σ : Type} {s s' : σ} {e : Halt}

theorem bind_eq_error {x : EStateM Halt σ α} {f : α → EStateM Halt σ β}
    (h : (x >>= f) s = .error e s') :
    x s = .error e s' ∨ ∃ a s₁, x s = .ok a s₁ ∧ f a s₁ = .error e s' := by
  cases hx : x s with
  | ok a s₁ =>
      rw [bind_of_ok hx] at h
      exact .inr ⟨a, s₁, rfl, h⟩
  | error e' s₁ =>
      rw [bind_of_error hx] at h
      cases h
      exact .inl rfl

theorem lift_eq_error {x : Except Fault α} (h : (liftM x : EStateM Halt σ α) s = .error e s') :
    s' = s := by
  cases x with
  | ok a => cases h
  | error f =>
      cases h
      rfl

end

namespace Machine

variable {m m' : Machine} {address : Nat} {index : Int32} {value : Value} {e : Halt}

theorem arrayAt_eq_ok {a : ArrayObject} (h : arrayAt address m = .ok a m') :
    m.objects[address]? = some (.ofArray a) ∧ m' = m := by
  unfold arrayAt at h
  rcases bind_eq_ok h with ⟨o, m₁, ho, hrest⟩
  rcases object_eq_ok ho with ⟨hobject, rfl⟩
  rcases lift_eq_ok hrest with ⟨harray, rfl⟩
  cases o with
  | ofInstance _ => cases harray
  | ofArray _ =>
      cases harray
      exact ⟨hobject, rfl⟩

theorem arrayAt_found {a : ArrayObject} (h : m.objects[address]? = some (.ofArray a)) :
    arrayAt address m = .ok a m := by
  unfold arrayAt
  rw [bind_of_ok (object_found h)]
  rfl

theorem arrayAt_eq_error (h : arrayAt address m = .error e m') : m' = m := by
  unfold arrayAt at h
  rcases bind_eq_error h with hobject | ⟨o, m₁, ho, hrest⟩
  · unfold object at hobject
    rw [get_bind] at hobject
    cases hfound : m.objects[address]? with
    | some o =>
        rw [hfound] at hobject
        cases hobject
    | none =>
        rw [hfound] at hobject
        cases hobject
        rfl
  · rcases object_eq_ok ho with ⟨-, rfl⟩
    exact lift_eq_error hrest

theorem loadElement_eq_error (h : loadElement address index m = .error e m') : m' = m := by
  unfold loadElement at h
  rcases bind_eq_error h with harray | ⟨a, m₁, ha, hload⟩
  · exact arrayAt_eq_error harray
  · rcases arrayAt_eq_ok ha with ⟨-, rfl⟩
    exact lift_eq_error hload

/-- A store that fails changes nothing: it fails before anything is put into the array. -/
theorem storeElement_eq_error (h : storeElement address index value m = .error e m') : m' = m := by
  unfold storeElement at h
  rcases bind_eq_error h with harray | ⟨a, m₁, ha, hrest⟩
  · exact arrayAt_eq_error harray
  · rcases arrayAt_eq_ok ha with ⟨-, rfl⟩
    rcases bind_eq_error hrest with hstore | ⟨s, m₂, hstore, hput⟩
    · exact lift_eq_error hstore
    · cases hput

theorem copyElements_eq_error {source target : Nat} {sourceStart targetStart length : Int32}
    (h : copyElements source sourceStart target targetStart length m = .error e m') : m' = m := by
  unfold copyElements at h
  rcases bind_eq_error h with hsource | ⟨a, m₁, ha, hrest⟩
  · exact arrayAt_eq_error hsource
  rcases arrayAt_eq_ok ha with ⟨-, rfl⟩
  rcases bind_eq_error hrest with htarget | ⟨b, m₂, hb, hrest'⟩
  · exact arrayAt_eq_error htarget
  rcases arrayAt_eq_ok hb with ⟨-, rfl⟩
  rcases bind_eq_error hrest' with hcopy | ⟨copied, m₃, hcopy, hput⟩
  · exact lift_eq_error hcopy
  rcases lift_eq_ok hcopy with ⟨-, rfl⟩
  cases copied with
  | some s => cases hput
  | none =>
      cases hput
      rfl

/-!
# Requests that succeed
-/

def contents? (m : Machine) (address : Nat) : Option (Element × Store) :=
  match m.objects[address]? with
  | some (.ofArray a) => some (a.cls.element, a.store)
  | _ => none

def withContents (m : Machine) (address : Nat) (s : Store) : Machine :=
  match m.objects[address]? with
  | some (.ofArray a) =>
      { m with objects := m.objects.setIfInBounds address (.ofArray { a with store := s }) }
  | _ => m

theorem contents?_eq_some {k : Element} {s : Store} :
    m.contents? address = some (k, s) ↔
      ∃ a, m.objects[address]? = some (.ofArray a) ∧ a.cls.element = k ∧ a.store = s := by
  unfold contents?
  split
  next a ha => simp [ha]
  next hnone =>
      constructor
      · intro h
        cases h
      · intro h
        rcases h with ⟨a, ha, -⟩
        exact absurd ha (hnone a)

theorem contents?_found {a : ArrayObject} (h : m.objects[address]? = some (.ofArray a)) :
    m.contents? address = some (a.cls.element, a.store) :=
  contents?_eq_some.mpr ⟨a, h, rfl, rfl⟩

theorem withContents_found {a : ArrayObject} (h : m.objects[address]? = some (.ofArray a))
    (s : Store) : m.withContents address s =
      { m with objects := m.objects.setIfInBounds address (.ofArray { a with store := s }) } := by
  unfold withContents
  rw [h]

theorem contents?_withContents {k : Element} {s : Store} (h : m.contents? address = some (k, s))
    (s' : Store) (other : Nat) :
    (m.withContents address s').contents? other =
      if other = address then some (k, s') else m.contents? other := by
  rcases contents?_eq_some.mp h with ⟨a, ha, rfl, rfl⟩
  rcases Array.getElem?_eq_some_iff.mp ha with ⟨hlt, -⟩
  rw [withContents_found ha]
  unfold contents?
  by_cases heq : other = address
  · subst heq
    simp [hlt]
  · simp only [if_neg heq]
    rw [Array.getElem?_setIfInBounds_ne (Ne.symm heq)]

theorem loadElement_ok_iff :
    loadElement address index m = .ok value m' ↔
      m' = m ∧ ∃ k s, m.contents? address = some (k, s) ∧ s.load index = .ok value := by
  unfold loadElement
  constructor
  · intro h
    rcases bind_eq_ok h with ⟨a, m₁, ha, hload⟩
    rcases arrayAt_eq_ok ha with ⟨hobject, rfl⟩
    rcases lift_eq_ok hload with ⟨hvalue, rfl⟩
    exact ⟨rfl, _, _, contents?_found hobject, hvalue⟩
  · intro h
    rcases h with ⟨rfl, k, s, hcontents, hload⟩
    rcases contents?_eq_some.mp hcontents with ⟨a, ha, rfl, rfl⟩
    rw [bind_of_ok (arrayAt_found ha), hload]
    rfl

theorem storeElement_ok_iff :
    storeElement address index value m = .ok () m' ↔
      ∃ k s s', m.contents? address = some (k, s) ∧ s.store index value = .ok s' ∧
        m' = m.withContents address s' := by
  unfold storeElement
  constructor
  · intro h
    rcases bind_eq_ok h with ⟨a, m₁, ha, hrest⟩
    rcases arrayAt_eq_ok ha with ⟨hobject, rfl⟩
    rcases bind_eq_ok hrest with ⟨s', m₂, hstore, hput⟩
    rcases lift_eq_ok hstore with ⟨hstored, rfl⟩
    cases hput
    exact ⟨_, _, s', contents?_found hobject, hstored, (withContents_found hobject s').symm⟩
  · intro h
    rcases h with ⟨k, s, s', hcontents, hstore, rfl⟩
    rcases contents?_eq_some.mp hcontents with ⟨a, ha, rfl, rfl⟩
    rw [bind_of_ok (arrayAt_found ha), hstore, withContents_found ha]
    rfl

theorem copyElements_ok_iff {source target : Nat} {sourceStart targetStart length : Int32} :
    copyElements source sourceStart target targetStart length m = .ok () m' ↔
      ∃ j s k t t', m.contents? source = some (j, s) ∧ m.contents? target = some (k, t) ∧
        s.copyInto t sourceStart targetStart length = .ok (some t') ∧
          m' = m.withContents target t' := by
  unfold copyElements
  constructor
  · intro h
    rcases bind_eq_ok h with ⟨a, m₁, ha, hrest⟩
    rcases arrayAt_eq_ok ha with ⟨hsource, rfl⟩
    rcases bind_eq_ok hrest with ⟨b, m₂, hb, hrest'⟩
    rcases arrayAt_eq_ok hb with ⟨htarget, rfl⟩
    rcases bind_eq_ok hrest' with ⟨copied, m₃, hcopy, hput⟩
    rcases lift_eq_ok hcopy with ⟨hcopied, rfl⟩
    cases copied with
    | none => cases hput
    | some t' =>
        cases hput
        exact ⟨_, _, _, _, t', contents?_found hsource, contents?_found htarget, hcopied,
          (withContents_found htarget t').symm⟩
  · intro h
    rcases h with ⟨j, s, k, t, t', hs, ht, hcopy, rfl⟩
    rcases contents?_eq_some.mp hs with ⟨a, ha, rfl, rfl⟩
    rcases contents?_eq_some.mp ht with ⟨b, hb, rfl, rfl⟩
    rw [bind_of_ok (arrayAt_found ha), bind_of_ok (arrayAt_found hb), hcopy, withContents_found hb]
    rfl

end Machine

/-!
# Copies that succeed
-/

/-- The elements of an array are kept in the way of their kind. -/
def Object.Laid : Object → Prop
  | ofInstance _ => True
  | ofArray a => a.store.layout = a.cls.element.layout

instance : DecidablePred Object.Laid
  | .ofInstance _ => inferInstanceAs (Decidable True)
  | .ofArray a => inferInstanceAs (Decidable (a.store.layout = a.cls.element.layout))

theorem Object.Typed.laid {o : Object} (h : o.Typed) : o.Laid := by
  cases o with
  | ofInstance i => trivial
  | ofArray a => exact h.2.1

namespace Machine

variable {m : Machine}

def Laid (m : Machine) : Prop :=
  ∀ o ∈ m.objects, o.Laid

theorem Sound.laid (h : m.Sound) : m.Laid := by
  intro o ho
  exact (h.objects o ho).laid

theorem Laid.layout (h : m.Laid) {address : Nat} {k : Element} {s : Store}
    (hcontents : m.contents? address = some (k, s)) : s.layout = k.layout := by
  rcases contents?_eq_some.mp hcontents with ⟨a, ha, rfl, rfl⟩
  exact h _ (Array.mem_of_getElem? ha)

def InRange (sourceSize targetSize : Nat) (sourceStart targetStart length : Int) : Prop :=
  0 ≤ sourceStart ∧ 0 ≤ targetStart ∧ 0 ≤ length ∧ sourceStart + length ≤ sourceSize ∧
    targetStart + length ≤ targetSize

instance (sourceSize targetSize : Nat) (sourceStart targetStart length : Int) :
    Decidable (InRange sourceSize targetSize sourceStart targetStart length) :=
  inferInstanceAs (Decidable (_ ∧ _))

theorem storeElement_ok_iff_inside (hm : m.Laid) {address : Nat} {k : Element} {s : Store}
    (hs : m.contents? address = some (k, s)) {index : Int32} {value : Value} :
    (∃ m', storeElement address index value m = .ok () m') ↔
      (∃ i : Nat, index.toInt = i ∧ i < s.size) ∧ value.kind = k.layout.kind := by
  constructor
  · intro h
    rcases h with ⟨m', hstore⟩
    rcases storeElement_ok_iff.mp hstore with ⟨k', s', s'', hs', hstored, -⟩
    cases hs.symm.trans hs'
    rcases Store.store_ok_iff.mp hstored with ⟨i, kept, hindex, hi, hnarrow, -⟩
    rw [hm.layout hs] at hnarrow
    exact ⟨⟨i, hindex, hi⟩, (Element.narrow_layout.mp hnarrow).1⟩
  · intro h
    rcases h with ⟨⟨i, hindex, hi⟩, hkind⟩
    have hnarrow : s.layout.narrow value = .ok (k.keep value) := by
      rw [hm.layout hs]
      exact Element.narrow_layout.mpr ⟨hkind, rfl⟩
    have hstored := Store.store_ok_iff.mpr ⟨i, _, hindex, hi, hnarrow, rfl⟩
    exact ⟨_, storeElement_ok_iff.mpr ⟨k, s, _, hs, hstored, rfl⟩⟩

theorem copyElements_ok_iff_inRange (hm : m.Laid) {source target : Nat} {j k : Element}
    {s t : Store} (hs : m.contents? source = some (j, s)) (ht : m.contents? target = some (k, t))
    {sourceStart targetStart length : Int32} :
    (∃ m', copyElements source sourceStart target targetStart length m = .ok () m') ↔
      InRange s.size t.size sourceStart.toInt targetStart.toInt length.toInt ∧
        j.layout = k.layout := by
  constructor
  · intro h
    rcases h with ⟨m', hcopy⟩
    rcases copyElements_ok_iff.mp hcopy with ⟨j', s', k', t', t'', hs', ht', hcopied, -⟩
    cases hs.symm.trans hs'
    cases ht.symm.trans ht'
    rcases Store.copyInto_ok_iff.mp hcopied with
      ⟨start, place, count, hstart, hplace, hcount, hsource, htarget, hlayout, -⟩
    rw [hm.layout hs, hm.layout ht] at hlayout
    refine ⟨⟨?_, ?_, ?_, ?_, ?_⟩, hlayout⟩
    all_goals omega
  · intro h
    rcases h with ⟨⟨hstart, hplace, hcount, hsource, htarget⟩, hlayout⟩
    rw [← hm.layout hs, ← hm.layout ht] at hlayout
    have hcopied := Store.copyInto_ok_iff.mpr ⟨sourceStart.toInt.toNat, targetStart.toInt.toNat,
      length.toInt.toNat, (Int.toNat_of_nonneg hstart).symm, (Int.toNat_of_nonneg hplace).symm,
      (Int.toNat_of_nonneg hcount).symm, by omega, by omega, hlayout, rfl⟩
    exact ⟨_, copyElements_ok_iff.mpr ⟨j, s, k, t, _, hs, ht, hcopied, rfl⟩⟩

/-- A copy succeeds exactly when no argument is negative, both ranges lie inside their arrays, and
the elements are of one kind, where booleans and bytes count as one. -/
theorem copyElements_succeeds_iff (hm : m.Laid) {source target : Nat} {j k : Element}
    {s t : Store} (hs : m.contents? source = some (j, s)) (ht : m.contents? target = some (k, t))
    (sourceStart targetStart length : Int32) :
    (∃ m', copyElements source sourceStart target targetStart length m = .ok () m') ↔
      0 ≤ sourceStart.toInt ∧ 0 ≤ targetStart.toInt ∧ 0 ≤ length.toInt ∧
        sourceStart.toInt + length.toInt ≤ s.size ∧ targetStart.toInt + length.toInt ≤ t.size ∧
          (j = k ∨ (j ∈ [.boolean, .byte] ∧ k ∈ [.boolean, .byte])) := by
  rw [copyElements_ok_iff_inRange hm hs ht, Element.layout_eq_iff, InRange]
  simp only [and_assoc]

end Machine

namespace BooleansAndBytes

/-!
An array of two booleans, an array of two bytes and an array of four integers.
-/

def host : Host := Sample.host []

def withRoot : Machine := endOf ((Request.load rootName).run host 8) Machine.empty

def withBooleans : Machine := endOf ((Request.newArray "[Z" 2).run host 8) withRoot

def withBytes : Machine := endOf ((Request.newArray "[B" 2).run host 8) withBooleans

def machine : Machine := endOf ((Request.newArray "[I" 4).run host 8) withBytes

theorem machine_facts :
    (∀ o ∈ machine.objects, o.Laid) ∧
      machine.contents? 0 = some (.boolean, Store.zeroed .boolean 2) ∧
        machine.contents? 1 = some (.byte, Store.zeroed .byte 2) ∧
          machine.contents? 2 = some (.int, Store.zeroed .int 4) := by
  decide +kernel

/-- Booleans are copied into an array of bytes, which is an array of another kind. -/
theorem booleans_copied :
    machine.Laid ∧ Element.boolean ≠ .byte ∧
      machine.contents? 0 = some (.boolean, Store.zeroed .boolean 2) ∧
        machine.contents? 1 = some (.byte, Store.zeroed .byte 2) ∧
          ∃ m', copyElements 0 0 1 0 2 machine = .ok () m' := by
  rcases machine_facts with ⟨hlaid, hbooleans, hbytes, -⟩
  have hcopied : (Store.zeroed .boolean 2).copyInto (Store.zeroed .byte 2) 0 0 2 =
      .ok (some (Store.zeroed .byte 2)) := by
    decide
  exact ⟨hlaid, nofun, hbooleans, hbytes, _,
    copyElements_ok_iff.mpr ⟨_, _, _, _, _, hbooleans, hbytes, hcopied, rfl⟩⟩

/-- Integers are not copied into an array of bytes, and no copy of integers reaches behind the end
of the array, however large its arguments are. -/
theorem integers_copied_within :
    machine.Laid ∧ machine.contents? 1 = some (.byte, Store.zeroed .byte 2) ∧
      machine.contents? 2 = some (.int, Store.zeroed .int 4) ∧
        (∃ m', copyElements 2 0 2 1 3 machine = .ok () m') ∧
          (¬ ∃ m', copyElements 2 0x7FFFFFFF 2 0 0x7FFFFFFF machine = .ok () m') ∧
            ¬ ∃ m', copyElements 2 0 1 0 1 machine = .ok () m' := by
  rcases machine_facts with ⟨hlaid, -, hbytes, hints⟩
  refine ⟨hlaid, hbytes, hints, ?_, ?_, ?_⟩
  · exact (copyElements_succeeds_iff hlaid hints hints 0 1 3).mpr (by decide)
  · rw [copyElements_succeeds_iff hlaid hints hints]
    decide
  · rw [copyElements_succeeds_iff hlaid hints hbytes]
    decide

end BooleansAndBytes

end Bytecode
