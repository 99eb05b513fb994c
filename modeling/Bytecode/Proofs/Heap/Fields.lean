import Bytecode.Proofs.Execution.CallingConvention
import Bytecode.Proofs.Heap.Strings

/-!
# Fields of objects

An object has a level for its class and for each superclass, and fields of one name and descriptor
may stand at several levels.  A reference leads to one cell, found from the level of its class
upward; writing through a reference changes that cell and nothing else.
-/

namespace Bytecode

open Machine

/-!
# Levels and cells
-/

/-- A class of an object, and the fields it declares with what they hold. -/
structure Level where
  cls : Class
  rows : List (Field × Value)

/-- Place of a field in an object: its level, where the class of the object is the first, and its
number there. -/
structure Cell where
  level : Nat
  field : Nat
deriving DecidableEq

namespace Cell

/-- The cell is met first when levels are searched from the class of the object upward. -/
def Before (a b : Cell) : Prop :=
  a.level < b.level ∨ a.level = b.level ∧ a.field < b.field

end Cell

namespace Level

def fresh (c : Class) : Level :=
  ⟨c, c.instanceFields.map fun f => (f, Value.default f.type)⟩

def cut : List Class → List Value → List Level
  | [], _ => []
  | c :: classes, values =>
      ⟨c, c.instanceFields.zip (values.take c.instanceFields.length)⟩ ::
        cut classes (values.drop c.instanceFields.length)

theorem map_cls_cut (classes : List Class) (values : List Value) :
    (cut classes values).map cls = classes := by
  induction classes generalizing values with
  | nil => rfl
  | cons c classes ih => exact congrArg (c :: ·) (ih _)

theorem cut_defaults (classes : List Class) :
    cut classes ((classes.flatMap Class.instanceFields).map fun f => Value.default f.type) =
      classes.map fresh := by
  induction classes with
  | nil => rfl
  | cons c classes ih =>
      have hlength : (c.instanceFields.map fun f => Value.default f.type).length =
        c.instanceFields.length := List.length_map _
      unfold cut
      rw [List.flatMap_cons, List.map_append, List.take_left' hlength, List.drop_left' hlength, ih,
        List.map_cons, fresh, List.map_prod_left_eq_zip]

end Level

namespace Instance

def levels (i : Instance) : List Level :=
  Level.cut i.cls.ancestors i.values

def row? (i : Instance) (cell : Cell) : Option (Field × Value) :=
  i.levels[cell.level]?.bind fun l => l.rows[cell.field]?

/-- Level at which a reference to a class starts: the first one of a class of that name, and the
level of the class of the object when there is none. -/
def start (i : Instance) (owner : String) : Nat :=
  (i.levels.findIdx? fun l => l.cls.name == owner).getD 0

def Named (i : Instance) (r : MemberRef) (cell : Cell) : Prop :=
  ∃ f value, i.row? cell = some (f, value) ∧ f.name = r.name ∧ f.descriptor = r.descriptor

/-- The reference leads to the cell: from the level of its class upward this is the first one with
its name and its descriptor. -/
structure Resolves (i : Instance) (r : MemberRef) (cell : Cell) : Prop where
  start_le : i.start r.owner ≤ cell.level
  named : i.Named r cell
  first : ∀ other, i.start r.owner ≤ other.level → other.Before cell → ¬ i.Named r other

theorem levels_ofClass (c : Class) : (ofClass c).levels = c.ancestors.map Level.fresh :=
  Level.cut_defaults c.ancestors

end Instance

/-!
# Cells and positions
-/

namespace Cell

variable {classes : List Class} {cell other : Cell} {f : Field}

def fieldAt? (cell : Cell) (classes : List Class) : Option Field :=
  classes[cell.level]?.bind fun c => c.instanceFields[cell.field]?

def offset (classes : List Class) (level : Nat) : Nat :=
  ((classes.take level).flatMap Class.instanceFields).length

def position (cell : Cell) (classes : List Class) : Nat :=
  offset classes cell.level + cell.field

theorem position_zero (classes : List Class) (field : Nat) :
    position ⟨0, field⟩ classes = field := by
  simp [position, offset]

theorem position_cons (c : Class) (classes : List Class) (level field : Nat) :
    position ⟨level + 1, field⟩ (c :: classes) =
      c.instanceFields.length + position ⟨level, field⟩ classes := by
  simp only [position, offset, List.take_succ_cons, List.flatMap_cons, List.length_append]
  omega

theorem offset_mono {level level' : Nat} (h : level ≤ level') :
    offset classes level ≤ offset classes level' := by
  unfold offset
  rw [← List.take_append_drop level (classes.take level'), List.take_take, min_eq_left h,
    List.flatMap_append, List.length_append]
  exact Nat.le_add_right _ _

theorem position_lt_offset (h : cell.fieldAt? classes = some f) :
    cell.position classes < offset classes (cell.level + 1) := by
  rcases Option.bind_eq_some_iff.mp h with ⟨c, hc, hf⟩
  have hlt := (List.getElem?_eq_some_iff.mp hf).1
  unfold position offset
  rw [List.take_add_one, hc, List.flatMap_append, List.length_append]
  simpa using hlt

theorem position_lt_position (h : other.Before cell) (hother : other.fieldAt? classes = some f) :
    other.position classes < cell.position classes := by
  rcases h with hlevel | ⟨hlevel, hfield⟩
  · calc other.position classes
        < offset classes (other.level + 1) := position_lt_offset hother
      _ ≤ offset classes cell.level := offset_mono hlevel
      _ ≤ cell.position classes := Nat.le_add_right _ _
  · unfold position
    rw [hlevel]
    omega

theorem eq_or_before (cell other : Cell) :
    cell = other ∨ cell.Before other ∨ other.Before cell := by
  obtain ⟨level, field⟩ := cell
  obtain ⟨level', field'⟩ := other
  simp only [Cell.Before, Cell.mk.injEq]
  omega

theorem position_inj {g : Field} (hcell : cell.fieldAt? classes = some f)
    (hother : other.fieldAt? classes = some g) :
    cell.position classes = other.position classes ↔ cell = other := by
  constructor
  · intro heq
    rcases eq_or_before cell other with h | h | h
    · exact h
    · exact absurd heq (position_lt_position h hcell).ne
    · exact absurd heq (position_lt_position h hother).ne'
  · rintro rfl
    rfl

theorem getElem?_position (h : cell.fieldAt? classes = some f) :
    (classes.flatMap Class.instanceFields)[cell.position classes]? = some f := by
  obtain ⟨level, field⟩ := cell
  induction classes generalizing level with
  | nil => cases h
  | cons c classes ih =>
      rw [List.flatMap_cons]
      cases level with
      | zero =>
          rw [position_zero, List.getElem?_append_left (List.getElem?_eq_some_iff.mp h).1]
          exact h
      | succ level =>
          rw [position_cons, List.getElem?_append_right (Nat.le_add_right _ _),
            Nat.add_sub_cancel_left]
          exact ih level h

theorem exists_cell {k : Nat} (h : (classes.flatMap Class.instanceFields)[k]? = some f) :
    ∃ cell : Cell, cell.fieldAt? classes = some f ∧ cell.position classes = k := by
  induction classes generalizing k with
  | nil => cases h
  | cons c classes ih =>
      rw [List.flatMap_cons] at h
      by_cases hk : k < c.instanceFields.length
      · rw [List.getElem?_append_left hk] at h
        exact ⟨⟨0, k⟩, h, position_zero _ k⟩
      · rw [List.getElem?_append_right (Nat.le_of_not_lt hk)] at h
        obtain ⟨⟨level, field⟩, hfield, hposition⟩ := ih h
        refine ⟨⟨level + 1, field⟩, hfield, ?_⟩
        rw [position_cons, hposition]
        omega

theorem offset_le_position_iff {start : Nat} (h : cell.fieldAt? classes = some f) :
    offset classes start ≤ cell.position classes ↔ start ≤ cell.level := by
  constructor
  · intro hle
    by_contra hlt
    have hlast := position_lt_offset h
    have hmono : offset classes (cell.level + 1) ≤ offset classes start :=
      offset_mono (Nat.lt_of_not_le hlt)
    omega
  · intro hle
    exact (offset_mono hle).trans (Nat.le_add_right _ _)

end Cell

namespace Level

variable {classes : List Class} {cell : Cell} {f : Field} {value : Value}

theorem row_cut_iff {values : List Value} :
    ((cut classes values)[cell.level]?.bind fun l => l.rows[cell.field]?) = some (f, value) ↔
      cell.fieldAt? classes = some f ∧ values[cell.position classes]? = some value := by
  obtain ⟨level, field⟩ := cell
  -- what the first class leaves of the values belongs to the classes above it
  induction classes generalizing values level with
  | nil => simp [cut, Cell.fieldAt?]
  | cons c classes ih =>
      cases level with
      | zero =>
          rw [Cell.position_zero]
          show (c.instanceFields.zip _)[field]? = some (f, value) ↔
            c.instanceFields[field]? = some f ∧ _
          rw [List.getElem?_zip_eq_some]
          apply and_congr_right
          intro hfield
          rw [List.getElem?_take_of_lt (List.getElem?_eq_some_iff.mp hfield).1]
      | succ level =>
          have hdrop : values[c.instanceFields.length + Cell.position ⟨level, field⟩ classes]? =
              (values.drop c.instanceFields.length)[Cell.position ⟨level, field⟩ classes]? :=
            List.getElem?_drop.symm
          rw [Cell.position_cons, hdrop]
          exact ih level

end Level

theorem findIdx?_eq_some_iff_getElem? {α : Type} {xs : List α} {p : α → Bool} {k : Nat} :
    xs.findIdx? p = some k ↔
      (∃ x, xs[k]? = some x ∧ p x = true) ∧ ∀ j < k, ∀ x, xs[j]? = some x → p x = false := by
  rw [List.findIdx?_eq_some_iff_getElem]
  constructor
  · rintro ⟨hlt, hfound, hfirst⟩
    refine ⟨⟨xs[k], List.getElem?_eq_getElem hlt, hfound⟩, ?_⟩
    intro j hj x hx
    rw [List.getElem?_eq_getElem (hj.trans hlt), Option.some.injEq] at hx
    rw [← hx]
    exact Bool.eq_false_iff.mpr (hfirst j hj)
  · rintro ⟨⟨x, hx, hfound⟩, hfirst⟩
    obtain ⟨hlt, rfl⟩ := List.getElem?_eq_some_iff.mp hx
    refine ⟨hlt, hfound, ?_⟩
    intro j hj
    rw [hfirst j hj _ (List.getElem?_eq_getElem (hj.trans hlt))]
    exact Bool.false_ne_true

namespace Class

variable {c : Class} {owner : String}

def startLevel (c : Class) (owner : String) : Nat :=
  (c.ancestors.findIdx? (·.name == owner)).getD 0

theorem chainFrom_eq_drop (c : Class) (owner : String) :
    c.chainFrom owner = c.ancestors.drop (c.startLevel owner) := by
  unfold chainFrom startLevel
  rw [List.dropWhile_eq_drop_findIdx_not, List.findIdx?_eq_guard_findIdx_lt]
  simp only [bne, Bool.not_not]
  by_cases hlt : c.ancestors.findIdx (·.name == owner) < c.ancestors.length
  · have hguard : Option.guard (fun k => decide (k < c.ancestors.length))
        (c.ancestors.findIdx (·.name == owner)) = some (c.ancestors.findIdx (·.name == owner)) :=
      if_pos (decide_eq_true hlt)
    rw [hguard, Option.getD_some]
    split
    next hnil => exact absurd (List.drop_eq_nil_iff.mp hnil) (Nat.not_le.mpr hlt)
    next => rfl
  · have hguard : Option.guard (fun k => decide (k < c.ancestors.length))
        (c.ancestors.findIdx (·.name == owner)) = none := if_neg (by simpa using hlt)
    rw [hguard, List.drop_eq_nil_of_le (Nat.le_of_not_lt hlt)]
    rfl

/-- A position is found where a field of the name and descriptor stands and none between the start
level and it does. -/
theorem fieldPosition_eq_ok_iff {name descriptor : String} {k : Nat} :
    c.fieldPosition owner name descriptor = .ok k ↔
      Cell.offset c.ancestors (c.startLevel owner) ≤ k ∧
        (∃ f, c.layout[k]? = some f ∧ f.isNamed name descriptor = true) ∧
          ∀ j, Cell.offset c.ancestors (c.startLevel owner) ≤ j → j < k →
            ∀ f, c.layout[j]? = some f → f.isNamed name descriptor = false := by
  -- the search starts behind the fields of the levels below the one that is named
  have hlayout : c.layout = (c.ancestors.take (c.startLevel owner)).flatMap instanceFields ++
      (c.chainFrom owner).flatMap instanceFields := by
    rw [chainFrom_eq_drop, ← List.flatMap_append, List.take_append_drop, layout]
  have hbehind (j : Nat) : c.layout[Cell.offset c.ancestors (c.startLevel owner) + j]? =
      ((c.chainFrom owner).flatMap instanceFields)[j]? := by
    rw [hlayout, Cell.offset, List.getElem?_append_right (Nat.le_add_right _ _),
      Nat.add_sub_cancel_left]
  have hlength : c.layout.length - ((c.chainFrom owner).flatMap instanceFields).length =
      Cell.offset c.ancestors (c.startLevel owner) := by
    rw [hlayout, List.length_append, Nat.add_sub_cancel, Cell.offset]
  unfold fieldPosition
  dsimp only
  rw [hlength]
  generalize (c.chainFrom owner).flatMap instanceFields = fields at hbehind
  generalize Cell.offset c.ancestors (c.startLevel owner) = start at hbehind
  constructor
  · intro h
    split at h
    next i hfind =>
        cases h
        obtain ⟨hfound, hfirst⟩ := findIdx?_eq_some_iff_getElem?.mp hfind
        refine ⟨Nat.le_add_right _ _, ?_, ?_⟩
        · rw [hbehind]
          exact hfound
        · intro j hstart hj
          obtain ⟨d, rfl⟩ := Nat.exists_eq_add_of_le hstart
          rw [hbehind]
          exact hfirst d (Nat.lt_of_add_lt_add_left hj)
    next => cases h
  · rintro ⟨hstart, hfound, hfirst⟩
    obtain ⟨i, rfl⟩ := Nat.exists_eq_add_of_le hstart
    have hfind : fields.findIdx? (·.isNamed name descriptor) = some i := by
      rw [findIdx?_eq_some_iff_getElem?, ← hbehind]
      refine ⟨hfound, ?_⟩
      intro j hj
      rw [← hbehind]
      exact hfirst _ (Nat.le_add_right _ _) (Nat.add_lt_add_left hj _)
    rw [hfind]

end Class

/-!
# References
-/

namespace Field

theorem isNamed_iff {f : Field} {name descriptor : String} :
    f.isNamed name descriptor = true ↔ f.name = name ∧ f.descriptor = descriptor := by
  rw [isNamed, Bool.and_eq_true, beq_iff_eq, beq_iff_eq]

end Field

namespace Instance

variable {i : Instance} {r : MemberRef} {cell : Cell} {f : Field} {value : Value}

theorem row?_eq_some_iff :
    i.row? cell = some (f, value) ↔
      cell.fieldAt? i.cls.ancestors = some f ∧
        i.values[cell.position i.cls.ancestors]? = some value :=
  Level.row_cut_iff

theorem start_eq (i : Instance) (owner : String) : i.start owner = i.cls.startLevel owner := by
  unfold start Class.startLevel
  rw [← Level.map_cls_cut i.cls.ancestors i.values, List.findIdx?_map]
  rfl

theorem Full.named_iff (h : i.Full) :
    i.Named r cell ↔ ∃ f, cell.fieldAt? i.cls.ancestors = some f ∧
      f.isNamed r.name r.descriptor = true := by
  constructor
  · rintro ⟨f, value, hrow, hnamed⟩
    exact ⟨f, (row?_eq_some_iff.mp hrow).1, Field.isNamed_iff.mpr hnamed⟩
  · rintro ⟨f, hf, hnamed⟩
    have hlt := (List.getElem?_eq_some_iff.mp (Cell.getElem?_position hf)).1
    rw [← Class.layout, ← h] at hlt
    exact ⟨f, _, row?_eq_some_iff.mpr ⟨hf, List.getElem?_eq_getElem hlt⟩,
      Field.isNamed_iff.mp hnamed⟩

/-- A reference leads to a cell when the search for a field ends at the position of the cell. -/
theorem Full.fieldPosition_iff (h : i.Full) {k : Nat} :
    i.cls.fieldPosition r.owner r.name r.descriptor = .ok k ↔
      ∃ cell, i.Resolves r cell ∧ cell.position i.cls.ancestors = k := by
  rw [Class.fieldPosition_eq_ok_iff]
  constructor
  · rintro ⟨hstart, ⟨f, hf, hnamed⟩, hfirst⟩
    obtain ⟨cell, hcell, rfl⟩ := Cell.exists_cell hf
    refine ⟨cell, ⟨?_, h.named_iff.mpr ⟨f, hcell, hnamed⟩, ?_⟩, rfl⟩
    · rw [start_eq]
      exact (Cell.offset_le_position_iff hcell).mp hstart
    · intro other hlevel hbefore hother
      obtain ⟨g, hg, hgnamed⟩ := h.named_iff.mp hother
      rw [start_eq, ← Cell.offset_le_position_iff hg] at hlevel
      have hnot := hfirst _ hlevel (Cell.position_lt_position hbefore hg) g
        (Cell.getElem?_position hg)
      rw [hgnamed] at hnot
      cases hnot
  · rintro ⟨cell, ⟨hlevel, hnamed, hfirst⟩, rfl⟩
    obtain ⟨f, hf, hnamed⟩ := h.named_iff.mp hnamed
    rw [start_eq] at hlevel
    refine ⟨(Cell.offset_le_position_iff hf).mpr hlevel, ⟨f, Cell.getElem?_position hf, hnamed⟩, ?_⟩
    intro j hj hlt g hg
    obtain ⟨other, hother, rfl⟩ := Cell.exists_cell hg
    rw [Cell.offset_le_position_iff hother, ← start_eq] at hj
    have hbefore : other.Before cell := by
      rcases Cell.eq_or_before other cell with rfl | hbefore | hafter
      · exact absurd hlt (Nat.lt_irrefl _)
      · exact hbefore
      · exact absurd (Cell.position_lt_position hafter hf) (Nat.lt_asymm hlt)
    by_contra hgnamed
    exact hfirst other hj hbefore
      (h.named_iff.mpr ⟨g, hother, Bool.eq_true_of_not_eq_false hgnamed⟩)

theorem Resolves.congr {i' : Instance} (h : i.Resolves r cell) (hfull : i.Full) (hfull' : i'.Full)
    (hcls : i'.cls = i.cls) : i'.Resolves r cell := by
  have hposition := hfull.fieldPosition_iff.mpr ⟨cell, h, rfl⟩
  rw [← hcls] at hposition
  obtain ⟨cell', hcell', heq⟩ := hfull'.fieldPosition_iff.mp hposition
  obtain ⟨f, value, hrow, -⟩ := h.named
  obtain ⟨f', value', hrow', -⟩ := hcell'.named
  have hf := (row?_eq_some_iff.mp hrow).1
  rw [← hcls] at hf
  rw [(Cell.position_inj (row?_eq_some_iff.mp hrow').1 hf).mp heq] at hcell'
  exact hcell'

theorem row?_setValue {other : Cell} (hcell : (i.row? cell).isSome) :
    (i.setValue (cell.position i.cls.ancestors) value).row? other =
      if other = cell then (i.row? cell).map fun row => (row.1, value) else i.row? other := by
  obtain ⟨⟨f, old⟩, hrow⟩ := Option.isSome_iff_exists.mp hcell
  obtain ⟨hf, hold⟩ := row?_eq_some_iff.mp hrow
  have hlt := (List.getElem?_eq_some_iff.mp hold).1
  by_cases heq : other = cell
  · subst heq
    rw [if_pos rfl, hrow]
    refine row?_eq_some_iff.mpr ⟨hf, ?_⟩
    exact List.getElem?_set_self hlt
  · rw [if_neg heq]
    apply Option.ext
    rintro ⟨g, held⟩
    rw [row?_eq_some_iff, row?_eq_some_iff]
    apply and_congr_right
    intro hg
    have hne : cell.position i.cls.ancestors ≠ other.position i.cls.ancestors :=
      fun hposition => heq ((Cell.position_inj hf hg).mp hposition).symm
    show (i.values.set _ value)[other.position i.cls.ancestors]? = some held ↔ _
    rw [List.getElem?_set_ne hne]

theorem value_of_row (hrow : i.row? cell = some (f, value)) :
    i.value (cell.position i.cls.ancestors) = value := by
  unfold Instance.value
  rw [List.getD_eq_getElem?_getD, (row?_eq_some_iff.mp hrow).2, Option.getD_some]

theorem Full.setValue (h : i.Full) (k : Nat) : (i.setValue k value).Full := by
  show (i.values.set k value).length = _
  rw [List.length_set]
  exact h

end Instance

/-!
# Instructions
-/

namespace Machine

theorem instanceAt_found {m : Machine} {address : Nat} {i : Instance}
    (h : m.objects[address]? = some (.ofInstance i)) : instanceAt address m = .ok i m := by
  unfold instanceAt
  rw [bind_of_ok (object_found h)]
  rfl

/-- Another machine, which differs in what one cell of the object at an address holds. -/
structure Puts (m : Machine) (address : Nat) (cell : Cell) (value : Value) (m' : Machine) :
    Prop where
  outside : m' = { m with objects := m'.objects }
  others : ∀ other ≠ address, m'.objects[other]? = m.objects[other]?
  object : ∃ i i', m.objects[address]? = some (.ofInstance i) ∧
    m'.objects[address]? = some (.ofInstance i') ∧ i'.Full ∧ i'.cls = i.cls ∧
      i'.reflects = i.reflects ∧ ∀ other, i'.row? other =
        if other = cell then (i.row? cell).map fun row => (row.1, value) else i.row? other

end Machine

structure Frame.Writes (frame : Frame) (index : UInt16) (r : MemberRef) (address : Nat)
    (value : Value) (below : List Slot) : Prop where
  member : frame.pool.member index = .ok r
  kind : ∃ type, Descriptor.fieldType r.descriptor = .ok type ∧ type.kind? = some value.kind
  stack : frame.stack = OperandStack.append ⟨.reference (some address) :: below⟩ value

structure Frame.Reads (frame : Frame) (index : UInt16) (r : MemberRef) (address : Nat)
    (below : List Slot) : Prop where
  member : frame.pool.member index = .ok r
  stack : frame.stack = ⟨.reference (some address) :: below⟩

namespace Exec

variable {frame : Frame} {m : Machine} {index : UInt16} {r : MemberRef} {address : Nat}
  {below : List Slot} {i : Instance} {cell : Cell} {f : Field} {value : Value}

theorem member_of_ok (h : frame.pool.member index = .ok r) :
    (liftM (frame.pool.member index) : Exec MemberRef) ⟨frame, m⟩ = .ok r ⟨frame, m⟩ := by
  rw [h]
  rfl

theorem getField_apply (hframe : frame.Reads index r address below)
    (hobject : m.objects[address]? = some (.ofInstance i)) (hfull : i.Full)
    (hcell : i.Resolves r cell) (hrow : i.row? cell = some (f, value)) :
    getField index ⟨frame, m⟩ =
      .ok () ⟨{ frame with stack := OperandStack.append ⟨below⟩ value }, m⟩ := by
  have hpop : (liftM (OperandStack.popObject "getfield receiver") : Exec Nat) ⟨frame, m⟩ =
      .ok address ⟨{ frame with stack := ⟨below⟩ }, m⟩ := by
    rw [Thread.onStack_apply, hframe.stack]
    rfl
  refine (bind_of_ok (member_of_ok hframe.member)).trans ?_
  refine (bind_of_ok hpop).trans ?_
  refine (bind_of_ok (onMachine_of_ok (instanceAt_found hobject))).trans ?_
  rw [hfull.fieldPosition_iff.mpr ⟨cell, hcell, rfl⟩]
  show (liftM (OperandStack.pushValue (i.value _)) : Exec Unit) _ = _
  rw [Thread.onStack_apply, OperandStack.pushValue_apply, Instance.value_of_row hrow]

theorem putField_apply (hframe : frame.Writes index r address value below)
    (hobject : m.objects[address]? = some (.ofInstance i)) (hfull : i.Full)
    (hcell : i.Resolves r cell) :
    putField index ⟨frame, m⟩ = .ok () ⟨{ frame with stack := ⟨below⟩ }, { m with
      objects := m.objects.setIfInBounds address
        (.ofInstance (i.setValue (cell.position i.cls.ancestors) value)) }⟩ := by
  obtain ⟨type, htype, hkind⟩ := hframe.kind
  have hread : (liftM (Descriptor.fieldType r.descriptor) : Exec ValueType) ⟨frame, m⟩ =
      .ok type ⟨frame, m⟩ := by
    rw [htype]
    rfl
  have hvalue : (liftM (OperandStack.popValue type) : Exec Value) ⟨frame, m⟩ =
      .ok value ⟨{ frame with stack := ⟨.reference (some address) :: below⟩ }, m⟩ := by
    rw [Thread.onStack_apply, hframe.stack, OperandStack.popValue_append hkind]
  have hpop : (liftM (OperandStack.popObject "putfield receiver") : Exec Nat)
      ⟨{ frame with stack := ⟨.reference (some address) :: below⟩ }, m⟩ =
      .ok address ⟨{ frame with stack := ⟨below⟩ }, m⟩ := rfl
  refine (bind_of_ok (member_of_ok hframe.member)).trans ?_
  refine (bind_of_ok hread).trans ?_
  refine (bind_of_ok hvalue).trans ?_
  refine (bind_of_ok hpop).trans ?_
  refine (bind_of_ok (onMachine_of_ok (instanceAt_found hobject))).trans ?_
  rw [hfull.fieldPosition_iff.mpr ⟨cell, hcell, rfl⟩]
  rfl

end Exec

section

variable {m : Machine} {address : Nat} {i : Instance} {cell : Cell} {r : MemberRef}

theorem Instance.Resolves.row (h : i.Resolves r cell) : ∃ f value, i.row? cell = some (f, value) :=
  let ⟨f, value, hrow, _⟩ := h.named
  ⟨f, value, hrow⟩

theorem Machine.puts_setValue (hobject : m.objects[address]? = some (.ofInstance i))
    (hfull : i.Full) (hcell : (i.row? cell).isSome) (value : Value) :
    m.Puts address cell value { m with
      objects := m.objects.setIfInBounds address
        (.ofInstance (i.setValue (cell.position i.cls.ancestors) value)) } := by
  have hlt := (Array.getElem?_eq_some_iff.mp hobject).1
  refine ⟨rfl, ?_, i, i.setValue (cell.position i.cls.ancestors) value, hobject, ?_,
    hfull.setValue _, rfl, rfl, ?_⟩
  · intro other hother
    exact Array.getElem?_setIfInBounds_ne hother.symm
  · exact Array.getElem?_setIfInBounds_self_of_lt hlt
  · intro other
    exact Instance.row?_setValue hcell

theorem Instance.Typed.full (h : i.Typed) : i.Full :=
  h.2.length_eq.symm

/-- Every object that a machine comes to have holds a value for each field. -/
theorem History.objects_full {host : Host} {events : List Event}
    (hnatives : host.natives = Native.library) (h : History host (fun _ _ => False) events)
    {e : Event} (he : e ∈ events) (hobject : e.machine.objects[address]? = some (.ofInstance i)) :
    i.Full := by
  have hpolite : host.natives.Polite := hnatives ▸ Native.library_polite
  have hchronicle : Chronicle host.path True Machine.empty events :=
    h.chronicle hpolite fun _ => False.elim
  have htyped : i.Typed := Conduct.typed_of_getElem? ((hchronicle.inv e he).2.2.1 trivial) hobject
  exact htyped.full

/-- A new object has the levels of its class and of all superclasses, with every field at its
default, and no object ever lacks the value of a field.  A write through a reference that leads to a
cell changes that cell and nothing else, so that a read through any reference finds the value
written if it leads to the same cell, and what it found before if it leads to another. -/
theorem putField_touches_one_cell :
    (∀ c : Class, (Instance.ofClass c).Full ∧
      (Instance.ofClass c).levels = c.ancestors.map Level.fresh) ∧
    (∀ {host : Host} {events : List Event}, host.natives = Native.library →
      History host (fun _ _ => False) events → ∀ e ∈ events, ∀ {address : Nat} {i : Instance},
        e.machine.objects[address]? = some (.ofInstance i) → i.Full) ∧
    ∀ {m : Machine} {address : Nat} {i : Instance} {frame : Frame} {index : UInt16} {r : MemberRef}
      {value : Value} {below : List Slot} {cell : Cell},
      m.objects[address]? = some (.ofInstance i) → i.Full →
      frame.Writes index r address value below → i.Resolves r cell →
      ∃ m', Exec.putField index ⟨frame, m⟩ = .ok () ⟨{ frame with stack := ⟨below⟩ }, m'⟩ ∧
        m.Puts address cell value m' ∧
        ∀ {frame' : Frame} {index' : UInt16} {r' : MemberRef} {below' : List Slot} {cell' : Cell},
          frame'.Reads index' r' address below' → i.Resolves r' cell' →
          ∃ f old, i.row? cell' = some (f, old) ∧
            Exec.getField index' ⟨frame', m⟩ =
              .ok () ⟨{ frame' with stack := OperandStack.append ⟨below'⟩ old }, m⟩ ∧
            Exec.getField index' ⟨frame', m'⟩ =
              .ok () ⟨{ frame' with stack := OperandStack.append ⟨below'⟩ <|
                if cell' = cell then value else old }, m'⟩ := by
  refine ⟨fun c => ⟨Instance.ofClass_full c, Instance.levels_ofClass c⟩, ?_, ?_⟩
  · intro host events hnatives h e he address i hobject
    exact h.objects_full hnatives he hobject
  intro m address i frame index r value below cell hobject hfull hwrites hcell
  obtain ⟨f, held, hrow⟩ := hcell.row
  have hputs := puts_setValue hobject hfull (Option.isSome_of_eq_some hrow) value
  refine ⟨_, Exec.putField_apply hwrites hobject hfull hcell, hputs, ?_⟩
  intro frame' index' r' below' cell' hreads hcell'
  obtain ⟨g, old, hold⟩ := hcell'.row
  refine ⟨g, old, hold, Exec.getField_apply hreads hobject hfull hcell' hold, ?_⟩
  -- the class of the object stays, so the other reference leads to the same cell as before
  obtain ⟨i₀, i', hobject₀, hobject', hfull', hcls, -, hrows⟩ := hputs.object
  cases hobject.symm.trans hobject₀
  have hrow' : i'.row? cell' = some (g, if cell' = cell then value else old) := by
    rw [hrows]
    by_cases heq : cell' = cell
    · rw [if_pos heq, if_pos heq, ← heq, hold]
      rfl
    · rw [if_neg heq, if_neg heq, hold]
  exact Exec.getField_apply hreads hobject' hfull' (hcell'.congr hfull hfull' hcls) hrow'

end

namespace Shadowing

/-!
A class with two fields of one name, and a subclass that declares one of them again.
-/

def field (owner descriptor : String) (type : ValueType) : Field :=
  ⟨owner, "x", descriptor, .ofWord 0x0001, type, none⟩

def parent : Class :=
  .mk ⟨"P", .ofWord 0x0021, [], [field "P" "J" .long, field "P" "I" .int], []⟩ none []

def child : Class :=
  .mk ⟨"C", .ofWord 0x0021, [], [field "C" "I" .int], []⟩ (some parent) []

def object : Instance := .ofClass child

def machine : Machine :=
  { Machine.empty with objects := #[.ofInstance object] }

def pool : Pool :=
  ⟨#[.unusable, .utf8 "x", .utf8 "I", .nameAndType 1 2, .utf8 "P", .classRef 4, .fieldRef 5 3,
    .utf8 "C", .classRef 7, .fieldRef 8 3, .utf8 "Q", .classRef 10, .fieldRef 11 3]⟩

def method : Method :=
  ⟨"C", "access", "()J", .ofWord 0x0009, ⟨[], .long⟩, 2, 1, #[], [], rfl⟩

def frame (slots : List Slot) : Frame :=
  { Frame.enter method child ⟨"C", pool⟩ [] with stack := ⟨slots⟩ }

theorem resolves_parent : object.Resolves ⟨"P", "x", "I", false⟩ ⟨1, 1⟩ where
  start_le := by decide
  named := ⟨_, _, rfl, rfl, rfl⟩
  first := by
    rintro ⟨level, field⟩ hlevel hbefore ⟨f, value, hrow, -, hdescriptor⟩
    have hstart : object.start "P" = 1 := by decide
    simp only [Cell.Before, hstart] at hlevel hbefore
    obtain rfl : level = 1 := by omega
    obtain rfl : field = 0 := by omega
    cases hrow
    exact absurd hdescriptor (by decide)

theorem resolves_child {owner : String} (h : object.start owner = 0) :
    object.Resolves ⟨owner, "x", "I", false⟩ ⟨0, 0⟩ where
  start_le := h.le
  named := ⟨_, _, rfl, rfl, rfl⟩
  first := by
    rintro other - (hlevel | ⟨-, hfield⟩)
    · exact absurd hlevel (Nat.not_lt_zero _)
    · exact absurd hfield (Nat.not_lt_zero _)

/-- Five is written to the field of the parent, which is read back; the field of the child, to which
the other two references lead, is still zero. -/
theorem parent_field_written :
    object.levels = [Level.fresh child, Level.fresh parent] ∧
    ∃ m', Exec.putField 6 ⟨frame [.int 5, .reference (some 0), .int 8], machine⟩ =
        .ok () ⟨frame [.int 8], m'⟩ ∧
      Exec.getField 6 ⟨frame [.reference (some 0)], m'⟩ = .ok () ⟨frame [.int 5], m'⟩ ∧
      Exec.getField 9 ⟨frame [.reference (some 0)], m'⟩ = .ok () ⟨frame [.int 0], m'⟩ ∧
      Exec.getField 12 ⟨frame [.reference (some 0)], m'⟩ = .ok () ⟨frame [.int 0], m'⟩ := by
  obtain ⟨hmade, -, haccess⟩ := putField_touches_one_cell
  obtain ⟨hfull, hlevels⟩ := hmade child
  have hwrites : (frame [.int 5, .reference (some 0), .int 8]).Writes 6 ⟨"P", "x", "I", false⟩ 0
    (.int 5) [.int 8] := ⟨by decide +kernel, ⟨.int, by decide +kernel, rfl⟩, rfl⟩
  obtain ⟨m', hput, -, hget⟩ := haccess (m := machine) rfl hfull hwrites resolves_parent
  have hreads {index : UInt16} {r : MemberRef} (h : pool.member "C" index = .ok r) :
    (frame [.reference (some 0)]).Reads index r 0 [] := ⟨h, rfl⟩
  have hparent : pool.member "C" 6 = .ok ⟨"P", "x", "I", false⟩ := by decide +kernel
  have hchild : pool.member "C" 9 = .ok ⟨"C", "x", "I", false⟩ := by decide +kernel
  have hother : pool.member "C" 12 = .ok ⟨"Q", "x", "I", false⟩ := by decide +kernel
  refine ⟨hlevels, m', hput, ?_, ?_, ?_⟩
  · obtain ⟨f, old, -, -, hread⟩ := hget (hreads hparent) resolves_parent
    exact hread
  · obtain ⟨f, old, hrow, -, hread⟩ := hget (hreads hchild) (resolves_child (by decide))
    cases hrow
    exact hread
  · obtain ⟨f, old, hrow, -, hread⟩ := hget (hreads hother) (resolves_child (by decide))
    cases hrow
    exact hread

end Shadowing

end Bytecode
