import Bytecode.Proofs.Heap.Elements

/-!
# Arrays as vectors

Whatever is loaded, stored and copied, an array is a vector of fixed length: an element is what was
stored there last, or what the last copy moved there from the place where it stood before, or the
zero that it had at first.
-/

namespace Bytecode

open Machine

inductive ArrayOp where
  | load (address : Nat) (index : Int32)
  | store (address : Nat) (index : Int32) (value : Value)
  | copy (source : Nat) (sourceStart : Int32) (target : Nat) (targetStart length : Int32)

/-- Where an element comes from when an operation is over. -/
inductive Origin where
  | unchanged
  /-- It is given with the operation. -/
  | given (value : Value)
  /-- It stood at an index of an array before. -/
  | moved (address i : Nat)

namespace Machine

def elements? (m : Machine) (address : Nat) : Option (Element × Nat) :=
  (m.contents? address).map fun c => (c.1, c.2.size)

def element? (m : Machine) (address i : Nat) : Option Value :=
  (m.contents? address).bind fun c => c.2.items[i]?

end Machine

namespace ArrayOp

/-- Carries out an operation; a load answers with the element. -/
def run : ArrayOp → MachineM (Option Value)
  | load address index => do
      let value ← loadElement address index
      return some value
  | store address index value => do
      storeElement address index value
      return none
  | copy source sourceStart target targetStart length => do
      copyElements source sourceStart target targetStart length
      return none

/-- The machine after some operations, the last of them first.  An operation that fails does not
keep the others from being carried out. -/
def after (m : Machine) : List ArrayOp → Machine
  | [] => m
  | op :: earlier => endOf op.run (after m earlier)

/-- Where the element at an index of an array comes from.  Kind and number of the elements decide
which operations succeed. -/
def origin (m : Machine) : ArrayOp → Nat → Nat → Origin
  | load _ _, _, _ => .unchanged
  | store target index value, address, i =>
      match m.elements? target with
      | some (k, size) =>
          if target = address ∧ index.toInt = i ∧ i < size ∧ value.kind = k.layout.kind then
            .given (k.keep value)
          else
            .unchanged
      | none => .unchanged
  | copy source sourceStart target targetStart length, address, i =>
      match m.elements? source, m.elements? target with
      | some (j, sourceSize), some (k, targetSize) =>
          if InRange sourceSize targetSize sourceStart.toInt targetStart.toInt length.toInt ∧
              j.layout = k.layout ∧ target = address ∧ targetStart.toInt ≤ i ∧
                i < targetStart.toInt + length.toInt then
            .moved source (sourceStart.toInt.toNat + (i - targetStart.toInt.toNat))
          else
            .unchanged
      | _, _ => .unchanged

/-- The element at an index of an array after some operations, the last of them first, on arrays
that hold zeros at first. -/
def held (m : Machine) : List ArrayOp → Nat → Nat → Value
  | [], address, _ =>
      match m.elements? address with
      | some (k, _) => Value.zero k.layout.kind
      | none => .reference none
  | op :: earlier, address, i =>
      match op.origin m address i with
      | .unchanged => held m earlier address i
      | .given value => value
      | .moved source j => held m earlier source j

end ArrayOp

def Origin.element? (m : Machine) (address i : Nat) : Origin → Option Value
  | unchanged => m.element? address i
  | given value => some value
  | moved source j => m.element? source j

/-!
# One operation
-/

namespace Machine

variable {m m' : Machine} {address i : Nat} {k : Element} {s : Store}

theorem elements?_of_contents? (h : m.contents? address = some (k, s)) :
    m.elements? address = some (k, s.size) := by
  rw [elements?, h]
  rfl

theorem contents?_of_elements? {size : Nat} (h : m.elements? address = some (k, size)) :
    ∃ s, m.contents? address = some (k, s) ∧ s.size = size := by
  rcases Option.map_eq_some_iff.mp h with ⟨⟨k', s⟩, hcontents, heq⟩
  cases heq
  exact ⟨s, hcontents, rfl⟩

theorem element?_of_contents? (h : m.contents? address = some (k, s)) (i : Nat) :
    m.element? address i = s.items[i]? := by
  rw [element?, h]
  rfl

theorem element?_withContents (h : m.contents? address = some (k, s)) (s' : Store) (other i : Nat) :
    (m.withContents address s').element? other i =
      if other = address then s'.items[i]? else m.element? other i := by
  unfold element?
  rw [contents?_withContents h]
  split
  · rfl
  · rfl

theorem withContents_kept (hm : m.Laid) (h : m.contents? address = some (k, s)) {s' : Store}
    (hlayout : s'.layout = s.layout) (hsize : s'.size = s.size) :
    (∀ other, (m.withContents address s').elements? other = m.elements? other) ∧
      (m.withContents address s').Laid := by
  constructor
  · intro other
    unfold elements?
    rw [contents?_withContents h]
    split
    next heq =>
        subst heq
        rw [h, Option.map_some, Option.map_some, hsize]
    next => rfl
  · rcases contents?_eq_some.mp h with ⟨a, ha, rfl, rfl⟩
    rw [withContents_found ha]
    intro o ho
    rcases Array.mem_or_eq_of_mem_setIfInBounds ho with ho | rfl
    · exact hm o ho
    · exact hlayout.trans (hm.layout h)

end Machine

namespace ArrayOp

variable {m m' : Machine} {address i : Nat}

theorem run_eq_error {op : ArrayOp} {e : Halt} (h : op.run m = .error e m') : m' = m := by
  cases op with
  | load address index =>
      rcases bind_eq_error h with hload | ⟨value, m₁, hload, hpure⟩
      · exact loadElement_eq_error hload
      · cases hpure
  | store address index value =>
      rcases bind_eq_error h with hstore | ⟨_, m₁, hstore, hpure⟩
      · exact storeElement_eq_error hstore
      · cases hpure
  | copy source sourceStart target targetStart length =>
      rcases bind_eq_error h with hcopy | ⟨_, m₁, hcopy, hpure⟩
      · exact copyElements_eq_error hcopy
      · cases hpure

theorem endOf_load (address : Nat) (index : Int32) (m : Machine) :
    endOf (load address index).run m = m := by
  unfold endOf
  cases hload : loadElement address index m with
  | ok value m' =>
      have hrun : (load address index).run m = .ok (some value) m' := bind_of_ok hload
      rw [hrun]
      exact (loadElement_ok_iff.mp hload).1
  | error e m' =>
      have hrun : (load address index).run m = .error e m' := bind_of_error hload
      rw [hrun]
      exact loadElement_eq_error hload

/-- A request without an answer either succeeds or has no effect. -/
theorem endOf_silent {x : MachineM Unit} (hfails : ∀ e m', x m = .error e m' → m' = m) :
    (∃ m', x m = .ok () m' ∧ endOf (x >>= fun _ => pure (none : Option Value)) m = m') ∨
      ((¬ ∃ m', x m = .ok () m') ∧ endOf (x >>= fun _ => pure (none : Option Value)) m = m) := by
  unfold endOf
  cases hx : x m with
  | ok _ m' =>
      rw [bind_of_ok hx]
      exact .inl ⟨m', rfl, rfl⟩
  | error e m' =>
      rw [bind_of_error hx]
      exact .inr ⟨nofun, hfails e m' hx⟩

theorem endOf_store (address : Nat) (index : Int32) (value : Value) (m : Machine) :
    (∃ m', storeElement address index value m = .ok () m' ∧
        endOf (store address index value).run m = m') ∨
      ((¬ ∃ m', storeElement address index value m = .ok () m') ∧
        endOf (store address index value).run m = m) :=
  endOf_silent fun _ _ => storeElement_eq_error

theorem endOf_copy (source : Nat) (sourceStart : Int32) (target : Nat)
    (targetStart length : Int32) (m : Machine) :
    (∃ m', copyElements source sourceStart target targetStart length m = .ok () m' ∧
        endOf (copy source sourceStart target targetStart length).run m = m') ∨
      ((¬ ∃ m', copyElements source sourceStart target targetStart length m = .ok () m') ∧
        endOf (copy source sourceStart target targetStart length).run m = m) :=
  endOf_silent fun _ _ => copyElements_eq_error

theorem run_kept (hm : m.Laid) (op : ArrayOp) :
    (∀ other, (endOf op.run m).elements? other = m.elements? other) ∧ (endOf op.run m).Laid := by
  cases op with
  | load address index =>
      rw [endOf_load]
      exact ⟨fun _ => rfl, hm⟩
  | store address index value =>
      rcases endOf_store address index value m with ⟨m', hstore, hend⟩ | ⟨-, hend⟩
      · rw [hend]
        rcases storeElement_ok_iff.mp hstore with ⟨k, s, s', hcontents, hstored, rfl⟩
        rcases Store.store_ok_iff.mp hstored with ⟨i, kept, -, -, -, rfl⟩
        exact withContents_kept hm hcontents rfl (Store.size_of_store hstored)
      · rw [hend]
        exact ⟨fun _ => rfl, hm⟩
  | copy source sourceStart target targetStart length =>
      rcases endOf_copy source sourceStart target targetStart length m with
        ⟨m', hcopy, hend⟩ | ⟨-, hend⟩
      · rw [hend]
        rcases copyElements_ok_iff.mp hcopy with ⟨j, s, k, t, t', -, ht, hcopied, rfl⟩
        rcases Store.copyInto_ok_iff.mp hcopied with ⟨start, place, count, -, -, -, -, -, -, rfl⟩
        exact withContents_kept hm ht rfl (Store.size_of_copyInto hcopied)
      · rw [hend]
        exact ⟨fun _ => rfl, hm⟩

theorem origin_congr (h : ∀ other, m'.elements? other = m.elements? other) (op : ArrayOp) :
    op.origin m' = op.origin m := by
  funext address i
  cases op with
  | load address index => rfl
  | store target index value => simp only [origin, h]
  | copy source sourceStart target targetStart length => simp only [origin, h]

theorem origin_store {target : Nat} {k : Element} {s : Store} (index : Int32) (value : Value)
    (h : m.contents? target = some (k, s)) :
    (store target index value).origin m address i =
      if target = address ∧ index.toInt = i ∧ i < s.size ∧ value.kind = k.layout.kind then
        .given (k.keep value)
      else
        .unchanged := by
  simp only [origin, elements?_of_contents? h]

theorem origin_copy {source target : Nat} {j k : Element} {s t : Store}
    (sourceStart targetStart length : Int32) (hs : m.contents? source = some (j, s))
    (ht : m.contents? target = some (k, t)) :
    (copy source sourceStart target targetStart length).origin m address i =
      if InRange s.size t.size sourceStart.toInt targetStart.toInt length.toInt ∧
          j.layout = k.layout ∧ target = address ∧ targetStart.toInt ≤ i ∧
            i < targetStart.toInt + length.toInt then
        .moved source (sourceStart.toInt.toNat + (i - targetStart.toInt.toNat))
      else
        .unchanged := by
  simp only [origin, elements?_of_contents? hs, elements?_of_contents? ht]

theorem lt_of_origin {op : ArrayOp} {source j : Nat}
    (h : op.origin m address i = .moved source j) :
    ∃ k size, m.elements? source = some (k, size) ∧ j < size := by
  unfold origin at h
  split at h
  · cases h
  · split at h
    · split at h
      · cases h
      · cases h
    · cases h
  · split at h
    next k sourceSize _ _ hsource _ =>
        split at h
        next hmoved =>
            cases h
            rcases hmoved with ⟨⟨hstart, hplace, hcount, hfits, -⟩, -, -, hle, hlt⟩
            exact ⟨k, sourceSize, hsource, by omega⟩
        next => cases h
    next => cases h

theorem element?_store (hm : m.Laid) (target : Nat) (index : Int32) (value : Value)
    (address i : Nat) :
    (endOf (store target index value).run m).element? address i =
      ((store target index value).origin m address i).element? m address i := by
  rcases endOf_store target index value m with ⟨m', hstore, hend⟩ | ⟨hnot, hend⟩
  · rw [hend]
    rcases storeElement_ok_iff.mp hstore with ⟨k, s, s', hcontents, hstored, rfl⟩
    rcases Store.store_ok_iff.mp hstored with ⟨place, kept, hindex, hlt, hnarrow, rfl⟩
    rw [hm.layout hcontents] at hnarrow
    rcases Element.narrow_layout.mp hnarrow with ⟨hkind, rfl⟩
    rw [element?_withContents hcontents, origin_store index value hcontents]
    by_cases htarget : address = target
    · subst htarget
      rw [if_pos rfl]
      by_cases hi : place = i
      · subst hi
        rw [if_pos ⟨rfl, hindex, hlt, hkind⟩]
        exact Array.getElem?_setIfInBounds_self_of_lt hlt
      · rw [if_neg (fun h => hi (by omega)), Array.getElem?_setIfInBounds_ne hi]
        exact (element?_of_contents? hcontents i).symm
    · rw [if_neg htarget, if_neg fun h => htarget h.1.symm]
      rfl
  · rw [hend]
    -- a store that fails leaves every element where it was
    have horigin : (store target index value).origin m address i = .unchanged := by
      cases hcontents : m.contents? target with
      | none => simp [origin, elements?, hcontents]
      | some c =>
          rw [origin_store index value hcontents]
          apply if_neg
          intro h
          rcases h with ⟨-, hindex, hlt, hkind⟩
          exact hnot ((storeElement_ok_iff_inside hm hcontents).mpr ⟨⟨i, hindex, hlt⟩, hkind⟩)
    rw [horigin]
    rfl

theorem element?_of_copyElements {source target : Nat} {sourceStart targetStart length : Int32}
    (h : copyElements source sourceStart target targetStart length m = .ok () m')
    (address i : Nat) :
    m'.element? address i =
      if target = address ∧ targetStart.toInt ≤ i ∧ i < targetStart.toInt + length.toInt then
        m.element? source (sourceStart.toInt.toNat + (i - targetStart.toInt.toNat))
      else
        m.element? address i := by
  rcases copyElements_ok_iff.mp h with ⟨j, s, k, t, t', hs, ht, hcopied, rfl⟩
  rcases Store.copyInto_ok_iff.mp hcopied with
    ⟨start, place, count, hstart, hplace, hcount, hsource, htarget, -, rfl⟩
  rw [element?_withContents ht, element?_of_contents? hs, hstart, hplace, hcount,
    Int.toNat_natCast, Int.toNat_natCast]
  by_cases haddress : address = target
  · subst haddress
    rw [if_pos rfl, Store.getElem?_splice hsource htarget, element?_of_contents? ht]
    by_cases hi : place ≤ i ∧ i < place + count
    · rw [if_pos hi, if_pos ⟨rfl, by omega, by omega⟩]
    · rw [if_neg hi, if_neg fun h => hi (by omega)]
  · rw [if_neg haddress, if_neg fun h => haddress h.1.symm]

theorem element?_copy (hm : m.Laid) (source : Nat) (sourceStart : Int32) (target : Nat)
    (targetStart length : Int32) (address i : Nat) :
    (endOf (copy source sourceStart target targetStart length).run m).element? address i =
      ((copy source sourceStart target targetStart length).origin m address i).element? m
        address i := by
  rcases endOf_copy source sourceStart target targetStart length m with
    ⟨m', hcopy, hend⟩ | ⟨hnot, hend⟩
  · rcases copyElements_ok_iff.mp hcopy with ⟨j, s, k, t, -, hs, ht, -, -⟩
    rcases (copyElements_ok_iff_inRange hm hs ht).mp ⟨m', hcopy⟩ with ⟨hrange, hlayout⟩
    rw [hend, element?_of_copyElements hcopy, origin_copy sourceStart targetStart length hs ht]
    simp only [hrange, hlayout, true_and]
    split
    · rfl
    · rfl
  · rw [hend]
    have horigin :
        (copy source sourceStart target targetStart length).origin m address i = .unchanged := by
      cases hs : m.contents? source with
      | none => simp [origin, elements?, hs]
      | some c =>
          cases ht : m.contents? target with
          | none => simp [origin, elements?, ht]
          | some d =>
              rw [origin_copy sourceStart targetStart length hs ht]
              apply if_neg
              intro h
              exact hnot ((copyElements_ok_iff_inRange hm hs ht).mpr ⟨h.1, h.2.1⟩)
    rw [horigin]
    rfl

/-- After an operation every element is what its origin says. -/
theorem element?_run (hm : m.Laid) (op : ArrayOp) (address i : Nat) :
    (endOf op.run m).element? address i = (op.origin m address i).element? m address i := by
  cases op with
  | load target index =>
      rw [endOf_load]
      rfl
  | store target index value => exact element?_store hm target index value address i
  | copy source sourceStart target targetStart length =>
      exact element?_copy hm source sourceStart target targetStart length address i

/-!
# Sequences of operations
-/

theorem after_kept (hm : m.Laid) (history : List ArrayOp) :
    (∀ other, (after m history).elements? other = m.elements? other) ∧ (after m history).Laid := by
  induction history with
  | nil => exact ⟨fun _ => rfl, hm⟩
  | cons op earlier ih =>
      rcases run_kept ih.2 op with ⟨hsame, hlaid⟩
      exact ⟨fun other => (hsame other).trans (ih.1 other), hlaid⟩

end ArrayOp

def Object.Fresh : Object → Prop
  | ofInstance _ => True
  | ofArray a => a.store = Store.zeroed a.cls.element a.store.size

instance : DecidablePred Object.Fresh
  | .ofInstance _ => inferInstanceAs (Decidable True)
  | .ofArray a =>
      inferInstanceAs (Decidable (a.store = Store.zeroed a.cls.element a.store.size))

namespace Machine

variable {m : Machine}

def Fresh (m : Machine) : Prop :=
  ∀ o ∈ m.objects, o.Fresh

theorem Fresh.contents? (h : m.Fresh) {address : Nat} {k : Element} {s : Store}
    (hcontents : m.contents? address = some (k, s)) : s = Store.zeroed k s.size := by
  rcases contents?_eq_some.mp hcontents with ⟨a, ha, rfl, rfl⟩
  exact h _ (Array.mem_of_getElem? ha)

theorem Fresh.laid (h : m.Fresh) : m.Laid := by
  intro o ho
  cases o with
  | ofInstance i => trivial
  | ofArray a =>
      have hfresh : a.store = Store.zeroed a.cls.element a.store.size := h _ ho
      exact congrArg Store.layout hfresh

end Machine

namespace ArrayOp

variable {m : Machine}

/-- Every element is the one that the operations, looked at from the last one back, put there. -/
theorem element?_after (hm : m.Fresh) (history : List ArrayOp) {address i size : Nat} {k : Element}
    (haddress : m.elements? address = some (k, size)) (hi : i < size) :
    (after m history).element? address i = some (held m history address i) := by
  -- the last operation tells where the element came from, the others what was there
  induction history generalizing address i k size with
  | nil =>
      rcases contents?_of_elements? haddress with ⟨s, hcontents, rfl⟩
      rw [after, element?_of_contents? hcontents, hm.contents? hcontents, held, haddress]
      simp [Store.zeroed, hi]
  | cons op earlier ih =>
      rcases after_kept hm.laid earlier with ⟨hkept, hlaid⟩
      rw [after, element?_run hlaid, origin_congr hkept, held]
      cases horigin : op.origin m address i with
      | unchanged => exact ih haddress hi
      | given value => rfl
      | moved source j =>
          rcases lt_of_origin horigin with ⟨k', size', hsource, hj⟩
          exact ih hsource hj

theorem loadElement_after (hm : m.Fresh) (history : List ArrayOp) {address : Nat} {k : Element}
    {s : Store} (hcontents : m.contents? address = some (k, s)) {index : Int32} {value : Value}
    {m' : Machine} :
    loadElement address index (after m history) = .ok value m' ↔
      m' = after m history ∧ 0 ≤ index.toInt ∧ index.toInt < s.size ∧
        value = held m history address index.toInt.toNat := by
  have hsize := elements?_of_contents? hcontents
  rw [← (after_kept hm.laid history).1 address] at hsize
  rcases contents?_of_elements? hsize with ⟨t, ht, hlength⟩
  have hheld {i : Nat} (hi : i < s.size) : t.items[i]? = some (held m history address i) := by
    rw [← element?_of_contents? ht]
    exact element?_after hm history (elements?_of_contents? hcontents) hi
  rw [loadElement_ok_iff]
  constructor
  · intro h
    rcases h with ⟨rfl, k', t', ht', hload⟩
    cases ht.symm.trans ht'
    rcases Store.load_ok_iff.mp hload with ⟨i, hindex, hvalue⟩
    rcases Array.getElem?_eq_some_iff.mp hvalue with ⟨hlt, -⟩
    have hi : i < s.size := hlength ▸ hlt
    rw [hheld hi] at hvalue
    cases hvalue
    refine ⟨rfl, by omega, by omega, ?_⟩
    rw [hindex, Int.toNat_natCast]
  · intro h
    rcases h with ⟨rfl, hnonneg, hlt, rfl⟩
    refine ⟨rfl, k, t, ht, Store.load_ok_iff.mpr ⟨index.toInt.toNat, ?_, hheld (by omega)⟩⟩
    exact (Int.toNat_of_nonneg hnonneg).symm

theorem moved_of_copyElements (hm : m.Laid) {source target : Nat}
    {sourceStart targetStart length : Int32} {m' : Machine}
    (h : copyElements source sourceStart target targetStart length m = .ok () m') {n : Nat}
    (hn : n < length.toInt) :
    ∃ value, m.element? source (sourceStart.toInt.toNat + n) = some value ∧
      m'.element? target (targetStart.toInt.toNat + n) = some value := by
  rcases copyElements_ok_iff.mp h with ⟨j, s, k, t, -, hs, ht, -, -⟩
  rcases (copyElements_ok_iff_inRange hm hs ht).mp ⟨m', h⟩ with
    ⟨⟨hstart, hplace, hcount, hsource, htarget⟩, -⟩
  have hsize : s.items.size = s.size := rfl
  have hlt : sourceStart.toInt.toNat + n < s.items.size := by omega
  refine ⟨s.items[sourceStart.toInt.toNat + n], ?_, ?_⟩
  · rw [element?_of_contents? hs, Array.getElem?_eq_getElem hlt]
  · rw [element?_of_copyElements h, if_pos ⟨rfl, by omega, by omega⟩, element?_of_contents? hs,
      Nat.add_sub_cancel_left, Array.getElem?_eq_getElem hlt]

/-- Arrays that are as they are made, and any operations on them, the last of them first.  A load
then succeeds exactly inside the array and answers with the element that the operations put there;
a copy that succeeds gives the target what the source had and leaves all else unchanged; and an
operation that fails changes nothing. -/
theorem arrays_are_vectors (hm : m.Fresh) (history : List ArrayOp) :
    (∀ {address k s}, m.contents? address = some (k, s) → ∀ index value m',
      loadElement address index (after m history) = .ok value m' ↔
        m' = after m history ∧ 0 ≤ index.toInt ∧ index.toInt < s.size ∧
          value = held m history address index.toInt.toNat) ∧
    (∀ {source sourceStart target targetStart length m'},
      copyElements source sourceStart target targetStart length (after m history) = .ok () m' →
        (∀ n : Nat, n < length.toInt → ∃ value,
          (after m history).element? source (sourceStart.toInt.toNat + n) = some value ∧
            m'.element? target (targetStart.toInt.toNat + n) = some value) ∧
        ∀ address i : Nat, ¬ (target = address ∧ targetStart.toInt ≤ i ∧
            i < targetStart.toInt + length.toInt) →
          m'.element? address i = (after m history).element? address i) ∧
    ∀ {op : ArrayOp} {e m'}, op.run (after m history) = .error e m' → m' = after m history := by
  refine ⟨?_, ?_, run_eq_error⟩
  · intro address k s hcontents index value m'
    exact loadElement_after hm history hcontents
  · intro source sourceStart target targetStart length m' hcopy
    constructor
    · intro n hn
      exact moved_of_copyElements (after_kept hm.laid history).2 hcopy hn
    · intro address i hout
      rw [element?_of_copyElements hcopy]
      exact if_neg hout

end ArrayOp

namespace BooleansAndBytes

/-- Two numbers are stored and copied onto the place behind the first of them; a number that is too
large for a byte is stored; and one operation fails. -/
def history : List ArrayOp :=
  [.store 2 4 (.int 9), .copy 2 0 2 1 3, .store 2 1 (.int 8), .store 2 0 (.int 7),
    .store 1 1 (.int 200)]

theorem history_facts :
    (∀ o ∈ machine.objects, o.Fresh) ∧ ArrayOp.held machine history 2 2 = .int 8 ∧
      ArrayOp.held machine history 1 1 = .int (-56) := by
  decide +kernel

/-- The second number is found where the copy moved it, the byte with its sign, and nothing behind
the end. -/
theorem copied_onto_itself :
    machine.Fresh ∧ machine.contents? 1 = some (.byte, Store.zeroed .byte 2) ∧
      machine.contents? 2 = some (.int, Store.zeroed .int 4) ∧
        (∃ m', loadElement 2 2 (ArrayOp.after machine history) = .ok (.int 8) m') ∧
          (∃ m', loadElement 1 1 (ArrayOp.after machine history) = .ok (.int (-56)) m') ∧
            ¬ ∃ value m', loadElement 2 4 (ArrayOp.after machine history) = .ok value m' := by
  rcases machine_facts with ⟨-, -, hbytes, hints⟩
  rcases history_facts with ⟨hfresh, hint, hbyte⟩
  have hloads := @(ArrayOp.arrays_are_vectors hfresh history).1
  have hmoved := (hloads hints 2 _ _).mpr ⟨rfl, by decide, by decide, hint.symm⟩
  have hkept := (hloads hbytes 1 _ _).mpr ⟨rfl, by decide, by decide, hbyte.symm⟩
  refine ⟨hfresh, hbytes, hints, ⟨_, hmoved⟩, ⟨_, hkept⟩, ?_⟩
  intro h
  rcases h with ⟨value, m', hload⟩
  exact absurd ((hloads hints 4 _ _).mp hload).2.2.1 (by decide)

end BooleansAndBytes

end Bytecode
