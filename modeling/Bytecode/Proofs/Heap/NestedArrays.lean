import Bytecode.Proofs.Class.ArrayTypes
import Bytecode.Proofs.Heap.Strings
import Bytecode.Proofs.Heap.Vectors

/-!
# Arrays of arrays on the heap

Making an array of several dimensions makes a tree of arrays.  Each part of the tree takes up a
range of new addresses, and the ranges of two parts are apart, so that no array is reached in two
ways and no part is changed while the next one is made.
-/

namespace Bytecode

open Machine

theorem Descriptor.TypeTree.zero_element (t : TypeTree) :
    Value.zero t.element.layout.kind = Value.default t.valueType := by
  cases t <;> rfl

/-!
# Trees of arrays
-/

namespace Machine

open Descriptor

/-- What is found from a value along a path of indices. -/
def follow? (m : Machine) (value : Value) : List Nat → Option Value
  | [] => some value
  | i :: path =>
      match value with
      | .reference (some address) => (m.element? address i).bind fun next => m.follow? next path
      | _ => none

/-- The indices lie inside arrays of the given lengths, the first one in the outermost. -/
def InBounds : List Nat → List Int32 → Prop
  | [], _ => True
  | i :: path, length :: lengths => (i : Int) < length.toInt ∧ InBounds path lengths
  | _ :: _, [] => False

theorem InBounds.lt_toNat {i : Nat} {path : List Nat} {length : Int32} {lengths : List Int32}
    (h : InBounds (i :: path) (length :: lengths)) : i < length.toInt.toNat := by
  have hi := h.1
  omega

/-- The array at an address has the given lengths, and all that it leads to lies between this
address and the second one, each part in a range of its own.  The innermost arrays hold zeros. -/
inductive ArrayTree (m : Machine) (component : String) (zero : Value) :
    List Int32 → Nat → Nat → Prop where
  | row {length : Int32} {address : Nat} {a : ArrayObject}
      (hobject : m.objects[address]? = some (.ofArray a))
      (hname : a.cls.name = bracketed 1 component)
      (hitems : a.store.items = Array.replicate length.toInt.toNat zero) :
      ArrayTree m component zero [length] address (address + 1)
  | rows {length : Int32} {inner : List Int32} {address : Nat} {a : ArrayObject} {bound : Nat → Nat}
      (hobject : m.objects[address]? = some (.ofArray a)) (hinner : inner ≠ [])
      (hname : a.cls.name = bracketed (inner.length + 1) component)
      (hsize : a.store.size = length.toInt.toNat) (hstart : bound 0 = address + 1)
      (hitems : ∀ i < length.toInt.toNat, a.store.items[i]? = some (.reference (some (bound i))))
      (hparts : ∀ i < length.toInt.toNat,
        ArrayTree m component zero inner (bound i) (bound (i + 1))) :
      ArrayTree m component zero (length :: inner) address (bound length.toInt.toNat)

theorem le_of_increasing {bound : Nat → Nat} {count : Nat}
    (h : ∀ i < count, bound i < bound (i + 1)) {i j : Nat} (hij : i ≤ j) (hj : j ≤ count) :
    bound i ≤ bound j := by
  induction j, hij using Nat.le_induction with
  | base => exact Nat.le_refl _
  | succ j hij ih => exact (ih (Nat.le_of_succ_le hj)).trans (h j hj).le

namespace ArrayTree

variable {m m' : Machine} {component : String} {zero : Value} {lengths : List Int32}
  {low high : Nat}

theorem lt (h : ArrayTree m component zero lengths low high) : low < high := by
  induction h with
  | row => exact Nat.lt_succ_self _
  | rows _ _ _ _ hstart _ _ ih =>
      have hle := le_of_increasing ih (Nat.zero_le _) (Nat.le_refl _)
      rw [hstart] at hle
      exact hle

section

variable {bound : Nat → Nat} {count : Nat}
  (hparts : ∀ i < count, ArrayTree m component zero lengths (bound i) (bound (i + 1)))

include hparts

theorem part_range (hstart : bound 0 = low + 1) {i : Nat} (hi : i < count) :
    low < bound i ∧ bound (i + 1) ≤ bound count := by
  have hincreasing : ∀ j < count, bound j < bound (j + 1) := fun j hj => (hparts j hj).lt
  have hfirst := le_of_increasing hincreasing (Nat.zero_le i) hi.le
  have hlast : bound (i + 1) ≤ bound count := le_of_increasing hincreasing hi (Nat.le_refl _)
  rw [hstart] at hfirst
  exact ⟨hfirst, hlast⟩

theorem part_unique {i j address : Nat} (hi : i < count) (hj : j < count)
    (hlow : bound i ≤ address) (hhigh : address < bound (i + 1)) (hlow' : bound j ≤ address)
    (hhigh' : address < bound (j + 1)) : i = j := by
  have hincreasing : ∀ k < count, bound k < bound (k + 1) := fun k hk => (hparts k hk).lt
  rcases Nat.lt_trichotomy i j with hlt | heq | hlt
  · have hle : bound (i + 1) ≤ bound j := le_of_increasing hincreasing hlt hj.le
    omega
  · exact heq
  · have hle : bound (j + 1) ≤ bound i := le_of_increasing hincreasing hlt hi.le
    omega

end

theorem congr (h : ArrayTree m component zero lengths low high)
    (hkept : ∀ address, low ≤ address → address < high →
      m'.objects[address]? = m.objects[address]?) :
    ArrayTree m' component zero lengths low high := by
  induction h with
  | row hobject hname hitems =>
      refine .row ?_ hname hitems
      rw [hkept _ (Nat.le_refl _) (Nat.lt_succ_self _)]
      exact hobject
  | rows hobject hinner hname hsize hstart hitems hparts ih =>
      have hlt := (ArrayTree.rows hobject hinner hname hsize hstart hitems hparts).lt
      refine .rows ?_ hinner hname hsize hstart hitems ?_
      · rw [hkept _ (Nat.le_refl _) hlt]
        exact hobject
      · intro i hi
        obtain ⟨habove, hend⟩ := part_range hparts hstart hi
        apply ih i hi
        intro other hlow hhigh
        exact hkept other (by omega) (by omega)

theorem follow?_cons {address i : Nat} {a : ArrayObject} {path : List Nat}
    (hobject : m.objects[address]? = some (.ofArray a)) :
    m.follow? (.reference (some address)) (i :: path) =
      a.store.items[i]?.bind fun next => m.follow? next path := by
  rw [follow?, element?_of_contents? (contents?_found hobject)]

theorem array_at (h : ArrayTree m component zero lengths low high) {path : List Nat}
    (hbounds : InBounds path lengths) (hshort : path.length < lengths.length) :
    ∃ address a, m.follow? (.reference (some low)) path = some (.reference (some address)) ∧
      low ≤ address ∧ address < high ∧ m.objects[address]? = some (.ofArray a) ∧
        a.cls.name = bracketed (lengths.length - path.length) component ∧
          ∃ length, lengths[path.length]? = some length ∧ a.store.size = length.toInt.toNat := by
  -- a path goes on in the part at its first index
  induction h generalizing path with
  | @row length address a hobject hname hitems =>
      cases path with
      | cons i path => simp at hshort
      | nil =>
          refine ⟨address, a, rfl, Nat.le_refl _, Nat.lt_succ_self _, hobject, hname, length, rfl,
            ?_⟩
          rw [Store.size, hitems, Array.size_replicate]
  | @rows length inner address a bound hobject hinner hname hsize hstart hitems hparts ih =>
      cases path with
      | nil =>
          have hlt := (ArrayTree.rows hobject hinner hname hsize hstart hitems hparts).lt
          exact ⟨address, a, rfl, Nat.le_refl _, hlt, hobject, hname, length, rfl, hsize⟩
      | cons i path =>
          have hi := hbounds.lt_toNat
          obtain ⟨found, b, hfollow, hlow, hhigh, hrest⟩ :=
            ih i hi hbounds.2 (Nat.lt_of_succ_lt_succ hshort)
          obtain ⟨habove, hend⟩ := part_range hparts hstart hi
          refine ⟨found, b, ?_, by omega, by omega, ?_⟩
          · rw [follow?_cons hobject, hitems i hi]
            exact hfollow
          · simpa using hrest

theorem zero_at (h : ArrayTree m component zero lengths low high) {path : List Nat}
    (hbounds : InBounds path lengths) (hlong : path.length = lengths.length) :
    m.follow? (.reference (some low)) path = some zero := by
  induction h generalizing path with
  | @row length address a hobject hname hitems =>
      obtain ⟨i, rfl⟩ := List.length_eq_one_iff.mp hlong
      rw [follow?_cons hobject, hitems, Array.getElem?_replicate, if_pos hbounds.lt_toNat]
      rfl
  | @rows length inner address a bound hobject hinner hname hsize hstart hitems hparts ih =>
      cases path with
      | nil => cases hlong
      | cons i path =>
          rw [follow?_cons hobject, hitems i hbounds.lt_toNat]
          exact ih i hbounds.lt_toNat hbounds.2 (Nat.succ.inj hlong)

theorem follow?_part {length : Int32} {inner : List Int32} {a : ArrayObject} {bound : Nat → Nat}
    {address i : Nat} {path : List Nat} (hobject : m.objects[address]? = some (.ofArray a))
    (hitems : ∀ i < length.toInt.toNat, a.store.items[i]? = some (.reference (some (bound i))))
    (hparts : ∀ i < length.toInt.toNat,
      ArrayTree m component zero inner (bound i) (bound (i + 1)))
    (hbounds : InBounds (i :: path) (length :: inner))
    (hshort : (i :: path).length < (length :: inner).length) :
    m.follow? (.reference (some address)) (i :: path) =
        m.follow? (.reference (some (bound i))) path ∧
      ∃ found, m.follow? (.reference (some (bound i))) path = some (.reference (some found)) ∧
        bound i ≤ found ∧ found < bound (i + 1) := by
  have hi := hbounds.lt_toNat
  obtain ⟨found, -, hfollow, hlow, hhigh, -⟩ :=
    (hparts i hi).array_at hbounds.2 (Nat.lt_of_succ_lt_succ hshort)
  refine ⟨?_, found, hfollow, hlow, hhigh⟩
  rw [follow?_cons hobject, hitems i hi]
  rfl

/-- Different paths lead to different arrays. -/
theorem path_unique (h : ArrayTree m component zero lengths low high) {path path' : List Nat}
    (hbounds : InBounds path lengths) (hshort : path.length < lengths.length)
    (hbounds' : InBounds path' lengths) (hshort' : path'.length < lengths.length)
    (hsame : m.follow? (.reference (some low)) path = m.follow? (.reference (some low)) path') :
    path = path' := by
  induction h generalizing path path' with
  | row =>
      rw [List.length_singleton, Nat.lt_one_iff, List.length_eq_zero_iff] at hshort hshort'
      rw [hshort, hshort']
  | @rows length inner address a bound hobject hinner hname hsize hstart hitems hparts ih =>
      cases path with
      | nil =>
          cases path' with
          | nil => rfl
          | cons j rest' =>
              obtain ⟨hstep, found, hfollow, hlow, -⟩ :=
                follow?_part hobject hitems hparts hbounds' hshort'
              -- a part lies behind the array that it is a part of
              have habove := (part_range hparts hstart hbounds'.lt_toNat).1
              rw [hstep, hfollow] at hsame
              cases hsame
              omega
      | cons i rest =>
          obtain ⟨hstep, found, hfollow, hlow, hhigh⟩ :=
            follow?_part hobject hitems hparts hbounds hshort
          rw [hstep] at hsame
          cases path' with
          | nil =>
              have habove := (part_range hparts hstart hbounds.lt_toNat).1
              rw [hfollow] at hsame
              cases hsame
              omega
          | cons j rest' =>
              obtain ⟨hstep', found', hfollow', hlow', hhigh'⟩ :=
                follow?_part hobject hitems hparts hbounds' hshort'
              rw [hstep'] at hsame
              have heq : found = found' := by
                rw [hfollow, hfollow'] at hsame
                cases hsame
                rfl
              subst heq
              -- parts are disjoint, so both paths go on in the same one
              obtain rfl := part_unique hparts hbounds.lt_toNat hbounds'.lt_toNat hlow hhigh hlow'
                hhigh'
              rw [ih i hbounds.lt_toNat hbounds.2 (Nat.lt_of_succ_lt_succ hshort) hbounds'.2
                (Nat.lt_of_succ_lt_succ hshort') hsame]

end ArrayTree

/-!
# Making the tree
-/

/-- The root is registered, and the elements of every array class are those that its name says. -/
structure Prepared (m : Machine) : Prop where
  root : ∃ root, m.class? rootName = some root
  arrays : ∀ e ∈ m.arrays, e.cls.Honest

structure Adds (m m' : Machine) : Prop where
  size_le : m.objects.size ≤ m'.objects.size
  kept : ∀ address < m.objects.size, m'.objects[address]? = m.objects[address]?

section

variable {m m' : Machine} {u : TypeTree} {load : Loader}

theorem Prepared.arrayClass (h : m.Prepared) {name : String} {e : Element}
    (helement : elementOf name = .ok e) :
    ∃ cls m', Machine.arrayClass name m = .ok cls m' ∧ cls.name = name ∧ cls.element = e ∧
      m'.Prepared ∧ m'.objects = m.objects := by
  cases harray : m.array? name with
  | some entry =>
      have hname := List.find?_some harray
      rw [beq_iff_eq] at hname
      have hhonest := h.arrays entry (List.mem_of_find?_eq_some harray)
      have helements := hhonest.element_eq (hname ▸ helement)
      exact ⟨entry.cls, m, arrayClass_known harray, hname, helements, h, rfl⟩
  | none =>
      obtain ⟨root, hroot⟩ := h.root
      refine ⟨_, _, arrayClass_made harray hroot helement, rfl, rfl, ⟨⟨root, hroot⟩, ?_⟩, rfl⟩
      intro entry hentry
      rcases List.mem_append.mp hentry with hold | hnew
      · exact h.arrays entry hold
      · rw [List.mem_singleton.mp hnew]
        exact helement

theorem Prepared.newArray (h : m.Prepared) {name : String} {e : Element}
    (helement : elementOf name = .ok e) {length : Int32} (hlength : 0 ≤ length) :
    ∃ cls m₁ m', Machine.arrayClass name m = .ok cls m₁ ∧
      newArrayOf cls length m₁ = .ok m.objects.size m' ∧ cls.name = name ∧ m'.Prepared ∧
        m'.objects = m.objects.push (.ofArray ⟨cls, Store.zeroed e length.toInt.toNat⟩) := by
  obtain ⟨cls, m₁, hclass, hname, rfl, hprepared, hobjects⟩ := h.arrayClass helement
  refine ⟨cls, m₁, { m₁ with
    objects := m₁.objects.push (.ofArray ⟨cls, Store.zeroed cls.element length.toInt.toNat⟩) },
    hclass, ?_, hname, ⟨hprepared.root, hprepared.arrays⟩, by rw [hobjects]⟩
  unfold newArrayOf
  rw [if_neg (Int32.not_lt.mpr hlength), ← hobjects]
  rfl

/-- While the elements of an array of arrays are made: those below an index are there, each with a
range of addresses of its own. -/
structure Filling (m : Machine) (component : String) (zero : Value) (inner : List Int32)
    (address : Nat) (cls : ArrayClass) (size index : Nat) (bound : Nat → Nat) : Prop where
  prepared : m.Prepared
  array : ∃ store : Store, m.objects[address]? = some (.ofArray ⟨cls, store⟩) ∧
    store.layout = .references ∧ store.size = size ∧
      ∀ i < index, store.items[i]? = some (.reference (some (bound i)))
  start : bound 0 = address + 1
  last : bound index = m.objects.size
  parts : ∀ i < index, ArrayTree m component zero inner (bound i) (bound (i + 1))

def MakesTree (make : MachineM Nat) (component : String) (zero : Value) (lengths : List Int32) :
    Prop :=
  ∀ m : Machine, m.Prepared → ∃ m', make m = .ok m.objects.size m' ∧ m'.Prepared ∧ m.Adds m' ∧
    ArrayTree m' component zero lengths m.objects.size m'.objects.size

end

section

variable {m m' : Machine} {component : String} {zero : Value} {inner : List Int32}
  {address size index : Nat} {cls : ArrayClass} {bound : Nat → Nat}

theorem Filling.part_range (h : m.Filling component zero inner address cls size index bound)
    {i : Nat} (hi : i < index) : address < bound i ∧ bound (i + 1) ≤ m.objects.size := by
  rw [← h.last]
  exact ArrayTree.part_range h.parts h.start hi

theorem Prepared.filling {store : Store} (h : m'.Prepared) (hlayout : store.layout = .references)
    (hsize : store.size = size)
    (hobjects : m'.objects = m.objects.push (.ofArray ⟨cls, store⟩)) :
    m'.Filling component zero inner m.objects.size cls size 0 fun _ => m.objects.size + 1 where
  prepared := h
  array := by
    refine ⟨store, ?_, hlayout, hsize, nofun⟩
    rw [hobjects]
    exact Array.getElem?_push_size
  start := rfl
  last := by rw [hobjects, Array.size_push]
  parts := nofun

theorem Filling.tree {length : Int32}
    (h : m.Filling component zero inner address cls length.toInt.toNat length.toInt.toNat bound)
    (hinner : inner ≠ []) (hname : cls.name = bracketed (inner.length + 1) component) :
    ArrayTree m component zero (length :: inner) address m.objects.size := by
  obtain ⟨store, hobject, -, hsize, hitems⟩ := h.array
  rw [← h.last]
  exact .rows hobject hinner hname hsize h.start hitems h.parts

theorem store_reference {store : Store} (hlayout : store.layout = .references)
    (hindex : index < store.size) (hsize : store.size < 2 ^ 31) (target : Reference) :
    store.store (Int32.ofNat index) (.reference target) =
      .ok { store with items := store.items.setIfInBounds index (.reference target) } := by
  refine Store.store_ok_iff.mpr ⟨index, .reference target, ?_, hindex, ?_, rfl⟩
  · exact Int32.toInt_ofNat_of_lt (hindex.trans hsize)
  · rw [hlayout]
    rfl

theorem Filling.parts_succ {m₁ : Machine}
    (h : m.Filling component zero inner address cls size index bound)
    (hbelow : address < m.objects.size) (hadds : m.Adds m₁)
    (htree : ArrayTree m₁ component zero inner m.objects.size m₁.objects.size)
    (hothers : ∀ other ≠ address, m'.objects[other]? = m₁.objects[other]?) :
    ∀ i < index + 1, ArrayTree m' component zero inner
      (if i ≤ index then bound i else m₁.objects.size)
      (if i + 1 ≤ index then bound (i + 1) else m₁.objects.size) := by
  intro i hi
  rw [if_pos (Nat.le_of_lt_succ hi)]
  rcases Nat.lt_succ_iff_lt_or_eq.mp hi with hlt | rfl
  · rw [if_pos (Nat.succ_le_of_lt hlt)]
    obtain ⟨habove, hend⟩ := h.part_range hlt
    refine (h.parts i hlt).congr fun other hlow hhigh => ?_
    rw [hothers other (by omega), hadds.kept other (by omega)]
  · rw [if_neg (Nat.not_succ_le_self i), h.last]
    exact htree.congr fun other hlow hhigh => hothers other (by omega)

/-- One more element is made and stored. -/
theorem Filling.step {make : MachineM Nat} (hmake : MakesTree make component zero inner)
    (h : m.Filling component zero inner address cls size index bound) (hindex : index < size)
    (hsize : size < 2 ^ 31) :
    ∃ m' bound', (make >>= fun element =>
        storeElement address (Int32.ofNat index) (.reference (some element))) m = .ok () m' ∧
      m'.Filling component zero inner address cls size (index + 1) bound' ∧
        m.objects.size ≤ m'.objects.size ∧
          ∀ other < m.objects.size, other ≠ address → m'.objects[other]? = m.objects[other]? := by
  obtain ⟨m₁, hmade, hprepared, hadds, htree⟩ := hmake m h.prepared
  obtain ⟨store, hobject, hlayout, hstoreSize, hitems⟩ := h.array
  have hbelow : address < m.objects.size := (Array.getElem?_eq_some_iff.mp hobject).1
  have hobject₁ : m₁.objects[address]? = some (.ofArray ⟨cls, store⟩) := by
    rw [hadds.kept address hbelow, hobject]
  have hstored := store_reference hlayout (hstoreSize ▸ hindex) (hstoreSize ▸ hsize)
    (some m.objects.size)
  have hwrite : storeElement address (Int32.ofNat index) (.reference (some m.objects.size)) m₁ =
      .ok () (m₁.withContents address { store with
        items := store.items.setIfInBounds index (.reference (some m.objects.size)) }) :=
    storeElement_ok_iff.mpr ⟨_, _, _, contents?_found hobject₁, hstored, rfl⟩
  rw [withContents_found hobject₁] at hwrite
  have hinside : index < store.items.size := hindex.trans_eq hstoreSize.symm
  have hothers (o : Object) : ∀ other ≠ address,
      (m₁.objects.setIfInBounds address o)[other]? = m₁.objects[other]? :=
    fun _ hne => Array.getElem?_setIfInBounds_ne hne.symm
  -- the new part ends where the next one will begin
  refine ⟨_, fun i => if i ≤ index then bound i else m₁.objects.size,
    (bind_of_ok hmade).trans hwrite, ?_, ?_, ?_⟩
  · refine ⟨⟨hprepared.root, hprepared.arrays⟩, ?_, ?_, ?_,
      h.parts_succ hbelow hadds htree (hothers _)⟩
    · refine ⟨_, Array.getElem?_setIfInBounds_self_of_lt (hbelow.trans_le hadds.size_le), hlayout,
        Array.size_setIfInBounds.trans hstoreSize, ?_⟩
      intro i hi
      rw [if_pos (Nat.le_of_lt_succ hi)]
      rcases Nat.lt_succ_iff_lt_or_eq.mp hi with hlt | rfl
      · rw [Array.getElem?_setIfInBounds_ne hlt.ne']
        exact hitems i hlt
      · rw [h.last]
        exact Array.getElem?_setIfInBounds_self_of_lt hinside
    · rw [if_pos (Nat.zero_le index)]
      exact h.start
    · rw [if_neg (Nat.not_succ_le_self index), Array.size_setIfInBounds]
  · rw [Array.size_setIfInBounds]
    exact hadds.size_le
  · intro other hother hne
    rw [hothers _ other hne, hadds.kept other hother]

theorem Filling.run {make : MachineM Nat} (hmake : MakesTree make component zero inner)
    (hsize : size < 2 ^ 31) {count : Nat} (hcount : index + count = size)
    (h : m.Filling component zero inner address cls size index bound) :
    ∃ m' bound', fillArray address make index count m = .ok () m' ∧
      m'.Filling component zero inner address cls size size bound' ∧
        m.objects.size ≤ m'.objects.size ∧
          ∀ other < m.objects.size, other ≠ address → m'.objects[other]? = m.objects[other]? := by
  -- the invariant is the filling up to the index, and each round moves it on by one
  induction count generalizing index m bound with
  | zero =>
      obtain rfl : index = size := hcount
      exact ⟨m, bound, rfl, h, Nat.le_refl _, fun _ _ _ => rfl⟩
  | succ count ih =>
      obtain ⟨m₁, bound₁, hstep, hfilling, hle, hkept⟩ := h.step hmake (by omega) hsize
      obtain ⟨m', bound', hrun, hfull, hle', hkept'⟩ := ih (by omega) hfilling
      refine ⟨m', bound', ?_, hfull, hle.trans hle', ?_⟩
      · obtain ⟨element, m₂, hmade, hstored⟩ := bind_eq_ok hstep
        unfold fillArray
        rw [bind_of_ok hmade, bind_of_ok hstored]
        exact hrun
      · intro other hother hne
        rw [hkept' other (hother.trans_le hle) hne, hkept other hother hne]

/-- Where array types are loaded by their names alone, arrays of as many dimensions as there are
lengths make a tree. -/
theorem nestedArray_makesTree {load : Loader}
    (hload : ∀ name, isArray name = true → load.loadArray name = Machine.arrayClass name)
    {u : TypeTree} (hu : u.WellNamed) {lengths : List Int32} (hne : lengths ≠ [])
    (hlengths : ∀ length ∈ lengths, 0 ≤ length) :
    MakesTree (nestedArray load (bracketed lengths.length (String.ofList u.text)) lengths)
      (String.ofList u.text) (Value.default u.valueType) lengths := by
  induction lengths with
  | nil => exact absurd rfl hne
  | cons length inner ih =>
      intro m hm
      obtain ⟨cls, m₁, m₂, hclass, hmade, hname, hprepared, hobjects⟩ :=
        hm.newArray (elementOf_bracketed hu inner.length) (hlengths length List.mem_cons_self)
      have hloaded : load.loadArray (bracketed (inner.length + 1) (String.ofList u.text)) m =
          .ok cls m₁ := by
        rw [hload _ (isArray_bracketed _ _)]
        exact hclass
      have hcomponent : cls.component = bracketed inner.length (String.ofList u.text) := by
        unfold ArrayClass.component
        rw [hname, drop_bracketed (by omega), Nat.add_sub_cancel]
      have hsize : m₂.objects.size = m.objects.size + 1 := by rw [hobjects, Array.size_push]
      have hold {address : Nat} (h : address < m.objects.size) :
          m₂.objects[address]? = m.objects[address]? := by
        rw [hobjects, Array.getElem?_push_lt h, Array.getElem?_eq_getElem h]
      unfold nestedArray
      rw [List.length_cons, bind_of_ok hloaded, bind_of_ok hmade, hcomponent]
      -- innermost arrays hold zeros, all others are filled with arrays that are made behind them
      by_cases hinner : inner = []
      · subst hinner
        refine ⟨m₂, rfl, hprepared, ⟨by omega, fun _ => hold⟩, ?_⟩
        rw [hsize]
        refine .row (hobjects ▸ Array.getElem?_push_size) hname ?_
        rw [← u.zero_element]
        rfl
      · have hmake := ih hinner fun l hl => hlengths l (List.mem_cons_of_mem _ hl)
        have hreference : (u.nest inner.length).element = .reference := by
          obtain ⟨k, hk⟩ := Nat.exists_eq_succ_of_ne_zero (mt List.length_eq_zero_iff.mp hinner)
          rw [hk]
          rfl
        rw [hreference] at hobjects
        have hfilling : m₂.Filling (String.ofList u.text) (Value.default u.valueType) inner
            m.objects.size cls length.toInt.toNat 0 fun _ => m.objects.size + 1 := by
          refine hprepared.filling ?_ ?_ hobjects
          · rfl
          · exact Array.size_replicate
        have hlimit : length.toInt.toNat < 2 ^ 31 := by
          have hlt := length.toInt_lt
          omega
        obtain ⟨m', bound, hrun, hfull, hle, hkept⟩ :=
          hfilling.run hmake hlimit (Nat.zero_add _)
        rw [if_pos hinner]
        refine ⟨m', bind_of_ok hrun, hfull.prepared, ⟨by omega, ?_⟩, hfull.tree hinner hname⟩
        intro address haddress
        rw [hkept address (by omega) haddress.ne, hold haddress]

end

theorem newMultiArray_negative {load : Loader} {name : String} {before after : List Int32}
    {negative : Int32} (hbefore : ∀ length ∈ before, 0 ≤ length) (hnegative : negative < 0)
    (m : Machine) :
    newMultiArray load name (before ++ negative :: after) m =
      .error (.fault (.negativeArraySize negative)) m := by
  have hfind : (before ++ negative :: after).find? (· < 0) = some negative := by
    rw [List.find?_eq_some_iff_append]
    refine ⟨decide_eq_true hnegative, before, after, rfl, ?_⟩
    intro length hlength
    simpa using hbefore length hlength
  unfold newMultiArray
  rw [hfind]
  rfl

theorem newMultiArray_eq {load : Loader} {name : String} {lengths : List Int32}
    (h : ∀ length ∈ lengths, 0 ≤ length) :
    newMultiArray load name lengths = nestedArray load name lengths := by
  have hfind : lengths.find? (· < 0) = none := by
    rw [List.find?_eq_none]
    intro length hlength
    simpa using h length hlength
  unfold newMultiArray
  rw [hfind]

end Machine

theorem Host.loadArray_eq (host : Host) (fuel : Nat) {name : String}
    (h : Descriptor.isArray name = true) :
    (host.load (fuel + 1)).loadArray name = Machine.arrayClass name := by
  funext m
  unfold Loader.loadArray
  rw [Host.load_succ, Host.loadVia, loadWith_array h]
  cases hclass : Machine.arrayClass name m with
  | ok a m' =>
      have hload : (do return Loaded.ofArray (← Machine.arrayClass name)) m = .ok (.ofArray a) m' :=
        bind_of_ok hclass
      exact bind_of_ok hload
  | error e m' =>
      have hload : (do return Loaded.ofArray (← Machine.arrayClass name)) m = .error e m' :=
        bind_of_error hclass
      exact bind_of_error hload

theorem History.prepared {host : Host} {events : List Event}
    (hnatives : host.natives = Native.library) (h : History host (fun _ _ => False) events)
    {e : Event} (he : e ∈ events) {root : Class} (hroot : e.machine.class? rootName = some root) :
    e.machine.Prepared := by
  have hpolite : host.natives.Polite := hnatives ▸ Native.library_polite
  have hchronicle : Chronicle host.path True Machine.empty events :=
    h.chronicle hpolite fun _ => False.elim
  exact ⟨⟨root, hroot⟩, ((hchronicle.inv e he).2.2.1 trivial).arrays⟩

/-- A negative length among those of an array of several dimensions is refused before anything is
made.  Otherwise, once the root is loaded, an array is made for every path of indices that does not
use up the lengths, each with its type and its length and none of them twice, and the innermost
arrays hold the default of what is left of the type behind as many brackets. -/
theorem newMultiArray_makes_tree :
    (∀ {load : Loader} {name : String} {before after : List Int32} {negative : Int32} {m : Machine},
      (∀ length ∈ before, 0 ≤ length) → negative < 0 →
        newMultiArray load name (before ++ negative :: after) m =
          .error (.fault (.negativeArraySize negative)) m) ∧
    (∀ {host : Host} {events : List Event}, host.natives = Native.library →
      History host (fun _ _ => False) events → ∀ e ∈ events, ∀ {root : Class},
        e.machine.class? rootName = some root → e.machine.Prepared) ∧
    ∀ {host : Host} {fuel : Nat} {m : Machine} {name : String} {e : Element} {lengths : List Int32},
      m.Prepared → Descriptor.elementOf name = .ok e → lengths ≠ [] →
      lengths.length ≤ (name.toList.takeWhile (· = '[')).length → (∀ length ∈ lengths, 0 ≤ length) →
      ∃ address m' type, newMultiArray (host.load (fuel + 1)) name lengths m = .ok address m' ∧
        m.Adds m' ∧
        (∀ path, InBounds path lengths → path.length < lengths.length → ∃ found a length,
          m'.follow? (.reference (some address)) path = some (.reference (some found)) ∧
            m.objects.size ≤ found ∧ m'.objects[found]? = some (.ofArray a) ∧
              a.cls.name = String.ofList (name.toList.drop path.length) ∧
                lengths[path.length]? = some length ∧ a.store.size = length.toInt.toNat) ∧
        (∀ path path', InBounds path lengths → path.length < lengths.length →
          InBounds path' lengths → path'.length < lengths.length →
            m'.follow? (.reference (some address)) path =
              m'.follow? (.reference (some address)) path' → path = path') ∧
        Descriptor.fieldType (String.ofList (name.toList.drop lengths.length)) = .ok type ∧
        ∀ path, InBounds path lengths → path.length = lengths.length →
          m'.follow? (.reference (some address)) path = some (Value.default type) := by
  refine ⟨fun hbefore hnegative => newMultiArray_negative hbefore hnegative _,
    fun hnatives h e he root hroot => h.prepared hnatives he hroot, ?_⟩
  intro host fuel m name e lengths hm helement hne hbrackets hlengths
  obtain ⟨u, hu, rfl⟩ := Descriptor.exists_bracketed helement hbrackets
  obtain ⟨m', hmade, -, hadds, htree⟩ :=
    nestedArray_makesTree (fun _ => host.loadArray_eq fuel) hu hne hlengths m hm
  refine ⟨m.objects.size, m', u.valueType, ?_, hadds, ?_, ?_, ?_, ?_⟩
  · rw [newMultiArray_eq hlengths]
    exact hmade
  · intro path hbounds hshort
    obtain ⟨found, a, hfollow, hnew, -, hobject, hname, length, hlength, hsize⟩ :=
      htree.array_at hbounds hshort
    refine ⟨found, a, length, hfollow, hnew, hobject, ?_, hlength, hsize⟩
    rw [hname, Descriptor.drop_bracketed hshort.le]
  · intro path path' hbounds hshort hbounds' hshort'
    exact htree.path_unique hbounds hshort hbounds' hshort'
  · rw [Descriptor.drop_bracketed (Nat.le_refl _), Nat.sub_self, Descriptor.bracketed_zero]
    exact Descriptor.TypeTree.fieldType_text hu
  · intro path hbounds hlong
    exact htree.zero_at hbounds hlong

namespace TwoOfThree

/-!
Two arrays of three arrays of integers that are not made.
-/

def host : Host := Sample.host []

def machine : Machine := endOf ((Request.load rootName).run host 8) Machine.empty

theorem machine_facts :
    (machine.class? rootName).isSome = true ∧ machine.arrays.isEmpty = true := by
  decide +kernel

theorem machine_prepared : machine.Prepared := by
  obtain ⟨hroot, harrays⟩ := machine_facts
  refine ⟨Option.isSome_iff_exists.mp hroot, ?_⟩
  rw [List.isEmpty_iff.mp harrays]
  exact fun e he => absurd he List.not_mem_nil

/-- The two parts are different arrays of three nulls; no part is made when one length is
negative. -/
theorem two_of_three_made :
    newMultiArray (host.load 1) "[[[I" [2, -3] machine =
        .error (.fault (.negativeArraySize (-3))) machine ∧
      ∃ address m' found a, newMultiArray (host.load 1) "[[[I" [2, 3] machine = .ok address m' ∧
        m'.follow? (.reference (some address)) [1] = some (.reference (some found)) ∧
          m'.objects[found]? = some (.ofArray a) ∧ a.cls.name = "[[I" ∧ a.store.size = 3 ∧
            m'.follow? (.reference (some address)) [0] ≠ some (.reference (some found)) ∧
              m'.follow? (.reference (some address)) [1, 2] = some (.reference none) := by
  obtain ⟨hnegative, -, hmade⟩ := newMultiArray_makes_tree
  have helement : Descriptor.elementOf "[[[I" = .ok .reference := by decide +kernel
  have hbrackets : ([2, 3] : List Int32).length ≤ ("[[[I".toList.takeWhile (· = '[')).length := by
    decide +kernel
  have hfits : ∀ length ∈ ([2] : List Int32), 0 ≤ length :=
    List.forall_mem_singleton.mpr (by decide)
  have hlengths : ∀ length ∈ ([2, 3] : List Int32), 0 ≤ length :=
    List.forall_mem_cons.mpr ⟨by decide, List.forall_mem_singleton.mpr (by decide)⟩
  obtain ⟨address, m', type, hnew, -, harrays, hunique, htype, hzero⟩ :=
    @hmade host 0 machine _ _ _ machine_prepared helement (List.cons_ne_nil _ _) hbrackets hlengths
  have hfirst : InBounds [0] [2, 3] := ⟨by decide, trivial⟩
  have hsecond : InBounds [1] [2, 3] := ⟨by decide, trivial⟩
  have hlast : InBounds [1, 2] [2, 3] := ⟨by decide, by decide, trivial⟩
  obtain ⟨found, a, length, hfound, -, hobject, hname, hlength, hsize⟩ :=
    harrays [1] hsecond (by decide)
  have hnull : type = .reference := by
    have hcomponent : Descriptor.fieldType
        (String.ofList ("[[[I".toList.drop ([2, 3] : List Int32).length)) = .ok .reference := by
      decide +kernel
    exact Except.ok.inj (htype.symm.trans hcomponent)
  subst hnull
  cases hlength
  refine ⟨?_, address, m', found, a, hnew, hfound, hobject, ?_, hsize, ?_, ?_⟩
  · exact hnegative hfits (by decide)
  · rw [hname]
    decide +kernel
  · intro hsame
    have heq := hunique [0] [1] hfirst (by decide) hsecond (by decide) (hsame.trans hfound.symm)
    cases heq
  · exact hzero [1, 2] hlast rfl

end TwoOfThree

end Bytecode
