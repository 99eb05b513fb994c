import Bytecode.Proofs.Execution.SuperCalls
import Bytecode.Proofs.Text.Units

/-!
# Strings

How the object of a text keeps it: which numbers its array has, how the coding is told, and what the
hash is.  Every text that is short enough for an array is kept so, whatever else the class of
strings declares, and is read back from any object that keeps it.
-/

namespace Bytecode

open Machine

/-!
# Fields of an instance
-/

namespace Class

variable {c : Class} {name descriptor : String} {position : Nat}

theorem chainFrom_name (c : Class) : c.chainFrom c.name = c.ancestors := by
  unfold chainFrom
  rw [ancestors_eq, List.dropWhile_cons_of_neg (by simp)]

theorem fieldPosition_name :
    c.fieldPosition c.name name descriptor = .ok position ↔
      c.layout.findIdx? (·.isNamed name descriptor) = some position := by
  unfold fieldPosition
  dsimp only
  rw [chainFrom_name, ← layout, Nat.sub_self]
  cases c.layout.findIdx? (·.isNamed name descriptor) with
  | none =>
      constructor
      · intro h
        cases h
      · intro h
        cases h
  | some i => simp

theorem named_of_fieldPosition (h : c.fieldPosition c.name name descriptor = .ok position) :
    ∃ f, c.layout[position]? = some f ∧ f.name = name ∧ f.descriptor = descriptor := by
  rcases List.findIdx?_eq_some_iff_getElem.mp (fieldPosition_name.mp h) with ⟨hlt, hnamed, -⟩
  rw [Field.isNamed, Bool.and_eq_true, beq_iff_eq, beq_iff_eq] at hnamed
  exact ⟨_, List.getElem?_eq_getElem hlt, hnamed⟩

theorem exists_fieldPosition (h : ∃ f ∈ c.layout, f.isNamed name descriptor = true) :
    ∃ position, c.fieldPosition c.name name descriptor = .ok position := by
  rcases h with ⟨f, hf, hnamed⟩
  have hfound : (c.layout.findIdx? (·.isNamed name descriptor)).isSome := by
    rw [List.findIdx?_isSome, List.any_eq_true]
    exact ⟨f, hf, hnamed⟩
  rcases Option.isSome_iff_exists.mp hfound with ⟨position, hposition⟩
  exact ⟨position, fieldPosition_name.mpr hposition⟩

end Class

namespace Instance

variable {i : Instance} {name name' descriptor descriptor' : String} {value : Value}

def Full (i : Instance) : Prop :=
  i.values.length = i.cls.layout.length

theorem ofClass_full (c : Class) : (ofClass c).Full :=
  List.length_map _

theorem Full.putIfPresent (h : i.Full) : (putIfPresent i name descriptor value).Full := by
  unfold Full at h ⊢
  rw [Charter.putIfPresent_cls, ← h]
  unfold Machine.putIfPresent
  split
  · exact List.length_set
  · rfl

theorem field_putIfPresent (hfull : i.Full)
    (h : ∃ f ∈ i.cls.layout, f.isNamed name descriptor = true) :
    (putIfPresent i name descriptor value).field name descriptor = .ok value := by
  rcases Class.exists_fieldPosition h with ⟨position, hposition⟩
  rcases Class.named_of_fieldPosition hposition with ⟨f, hf, -⟩
  rcases List.getElem?_eq_some_iff.mp hf with ⟨hlt, -⟩
  unfold field
  rw [Charter.putIfPresent_cls, hposition]
  simp only [putIfPresent, hposition, setValue, Instance.value, Except.map]
  rw [List.getD_eq_getElem?_getD, List.getElem?_set_self (hfull ▸ hlt)]
  rfl

theorem field_putIfPresent_of_ne (h : name' ≠ name) :
    (putIfPresent i name descriptor value).field name' descriptor' = i.field name' descriptor' := by
  unfold field
  rw [Charter.putIfPresent_cls]
  cases hposition' : i.cls.fieldPosition i.cls.name name' descriptor' with
  | error f => rfl
  | ok position' =>
      apply congrArg Except.ok
      unfold putIfPresent
      split
      next position hposition =>
          rcases Class.named_of_fieldPosition hposition with ⟨f, hf, hname, -⟩
          rcases Class.named_of_fieldPosition hposition' with ⟨f', hf', hname', -⟩
          have hne : position ≠ position' := by
            intro heq
            subst heq
            cases hf.symm.trans hf'
            exact h (hname'.symm.trans hname)
          unfold Instance.value setValue
          rw [List.getD_eq_getElem?_getD, List.getElem?_set_ne hne, ← List.getD_eq_getElem?_getD]
      next => rfl

end Instance

/-!
# How a text is kept
-/

/-- The types that the field of a text can have: arrays of characters and arrays of bytes. -/
inductive TextField where
  | chars
  | bytes
deriving DecidableEq

namespace TextField

def descriptor : TextField → String
  | chars => "[C"
  | bytes => "[B"

def element : TextField → Element
  | chars => .char
  | bytes => .byte

/-- The numbers that stand for a text: its units, or as bytes the codes of its characters where all
units are below 256, and the upper and lower half of every unit where not. -/
def numbers : TextField → String → List Nat
  | chars, text => (Text.toUnits text).map UInt16.toNat
  | bytes, text =>
      if Text.IsLatin text then text.toList.map Char.toNat
      else (Text.toUnits text).flatMap fun u => [u.toNat / 256, u.toNat % 256]

def contents (f : TextField) (text : String) : Store :=
  ⟨f.element.layout,
    ((f.numbers text).map fun n : Nat => .int (Int32.ofInt (f.element.reduce n))).toArray⟩

def coder (text : String) : Int32 :=
  if Text.IsLatin text then 0 else 1

theorem reduce_char (u : UInt16) : Element.char.reduce u.toNat = u.toNat :=
  Int.emod_eq_of_lt (Int.natCast_nonneg _) (Int.ofNat_lt.mpr u.toNat_lt)

theorem reduce_byte (n : Int) : Element.byte.reduce n = n.bmod (2 ^ 8) :=
  rfl

theorem ofInt_reduce_byte (n : Nat) :
    Int32.ofInt (Element.byte.reduce n) = (UInt8.ofNat n).toInt8.toInt32 := by
  have hbyte := BitVec.toInt_eq_toNat_bmod (UInt8.ofNat n).toBitVec
  rw [UInt8.toNat_toBitVec, UInt8.toNat_ofNat', Int.natCast_mod, Int.emod_bmod] at hbyte
  apply Int32.toInt_inj.mp
  rw [Int8.toInt_toInt32, Int32.toInt_ofInt, reduce_byte]
  exact (Element.narrowInt_signed n (by decide)).trans hbyte.symm

theorem contents_chars (text : String) :
    chars.contents text = Store.ofUnits (Text.toUnits text) := by
  unfold contents numbers element Store.ofUnits
  simp only [List.map_map, Function.comp_def, reduce_char, Text.toInt32_eq_ofInt]
  rfl

theorem contents_bytes (text : String) :
    bytes.contents text = Store.ofBytes ((bytes.numbers text).map UInt8.ofNat) := by
  unfold contents element Store.ofBytes
  simp only [List.map_map, Function.comp_def, ofInt_reduce_byte]
  rfl

theorem numbers_latin {text : String} (h : Text.IsLatin text) :
    bytes.numbers text = text.toList.map Char.toNat :=
  if_pos h

theorem map_numbers_latin {text : String} (h : Text.IsLatin text) :
    (bytes.numbers text).map UInt8.ofNat = (Text.toUnits text).map UInt16.toUInt8 := by
  rw [numbers_latin h, h.chars.1, List.map_map, List.map_map]
  apply List.map_congr_left
  intro c _
  apply UInt8.toNat_inj.mp
  simp

theorem map_numbers_wide {text : String} (h : ¬ Text.IsLatin text) :
    (bytes.numbers text).map UInt8.ofNat = (Text.toUnits text).flatMap unitHalves := by
  have hnumbers : bytes.numbers text =
    (Text.toUnits text).flatMap fun u => [u.toNat / 256, u.toNat % 256] := if_neg h
  rw [hnumbers, List.map_flatMap]
  congr 1
  funext u
  exact (Text.unitHalves_eq_map u).symm

def coding : TextField → String → Option Coding
  | chars, _ => none
  | bytes, text => some (if Text.IsLatin text then .latin1 else .utf16)

theorem encodeText_eq (f : TextField) (text : String) :
    encodeText f.descriptor (Text.toUnits text) = .ok (f.contents text, f.coding text) := by
  cases f with
  | chars =>
      rw [contents_chars]
      rfl
  | bytes =>
      have hall : ((Text.toUnits text).all (· < 0x100)) = true ↔ Text.IsLatin text := by
        simp [Text.IsLatin, UInt16.lt_iff_toNat_lt]
      rw [contents_bytes]
      by_cases hlatin : Text.IsLatin text
      · have hcoding : bytes.coding text = some .latin1 := congrArg some (if_pos hlatin)
        rw [hcoding, map_numbers_latin hlatin]
        exact if_pos (hall.mpr hlatin)
      · have hcoding : bytes.coding text = some .utf16 := congrArg some (if_neg hlatin)
        rw [hcoding, map_numbers_wide hlatin]
        exact if_neg fun h => hlatin (hall.mp h)

theorem map_unit_ofUnits (units : List UInt16) :
    (Store.ofUnits units).items.toList.map Store.unit = units := by
  simp [Store.ofUnits, Store.unit, Function.comp_def]

theorem byte_toInt32 (b : UInt8) : Store.byte (.int b.toInt8.toInt32) = b := by
  have hnarrow : b.toInt8.toInt32.toInt8 = b.toInt8 := Int8.toInt8_toInt32 b.toInt8
  apply UInt8.toBitVec_inj.mp
  calc (b.toBitVec.signExtend 32).setWidth 8
      = (b.toBitVec.signExtend 32).signExtend 8 :=
        (BitVec.signExtend_eq_setWidth_of_le _ (by decide)).symm
    _ = b.toBitVec := congrArg Int8.toBitVec hnarrow

theorem map_byte_ofBytes (bytes : List UInt8) :
    (Store.ofBytes bytes).items.toList.map Store.byte = bytes := by
  simp [Store.ofBytes, byte_toInt32, Function.comp_def]

theorem decodeText_chars (m : Machine) (coder : Int32) (text : String) :
    m.decodeText coder (chars.contents text) = .ok text := by
  rw [contents_chars]
  show Except.ok (Text.ofUnits ((Store.ofUnits _).items.toList.map Store.unit)) = _
  rw [map_unit_ofUnits, Text.ofUnits_toUnits]

theorem decodeText_bytes (m : Machine) (text : String) :
    m.decodeText (coder text) (bytes.contents text) = .ok text := by
  rw [contents_bytes]
  show (if coder text = Coding.utf16.code then
      .ok (Text.ofUnits (unitsOfHalves ((Store.ofBytes _).items.toList.map Store.byte)))
    else
      .ok (String.ofList (((Store.ofBytes _).items.toList.map Store.byte).map fun b =>
        Char.ofNat b.toNat)) : Except Fault String) = _
  rw [map_byte_ofBytes]
  by_cases hlatin : Text.IsLatin text
  · have hcoder : coder text = 0 := if_pos hlatin
    have hchar : ∀ c ∈ text.toList, Char.ofNat (UInt8.ofNat c.toNat).toNat = id c := by
      intro c hc
      rw [UInt8.toNat_ofNat', Nat.mod_eq_of_lt (hlatin.chars.2 c hc), Char.ofNat_toNat]
      rfl
    have hchars : ((text.toList.map Char.toNat).map UInt8.ofNat).map (fun b => Char.ofNat b.toNat) =
        text.toList := by
      rw [List.map_map, List.map_map]
      exact (List.map_congr_left hchar).trans (List.map_id _)
    rw [hcoder, if_neg (by decide), numbers_latin hlatin, hchars, String.ofList_toList]
  · have hcoder : coder text = 1 := if_neg hlatin
    rw [hcoder, if_pos (by decide), map_numbers_wide hlatin, Text.unitsOfHalves_flatMap,
      Text.ofUnits_toUnits]

end TextField

/-- The objects of the class have a field for a text: whatever is named `value` has the given type,
and a field tells the coding of bytes. -/
structure Class.KeepsText (c : Class) (f : TextField) : Prop where
  value : ∃ g ∈ c.layout, g.name = "value"
  only : ∀ g ∈ c.layout, g.name = "value" → g.descriptor = f.descriptor
  coder : f = .bytes → ∃ g ∈ c.layout, g.isNamed "coder" "B" = true

/-- The object keeps the text, and its hash if there is a field for it. -/
structure Machine.KeepsText (m : Machine) (i : Instance) (f : TextField) (text : String) :
    Prop where
  value : ∃ address a, i.field "value" f.descriptor = .ok (.reference (some address)) ∧
    m.objects[address]? = some (.ofArray a) ∧ a.cls.name = f.descriptor ∧
      a.store = f.contents text
  coder : f = .bytes → i.field "coder" "B" = .ok (.int (TextField.coder text))
  hash : (∃ g ∈ i.cls.layout, g.isNamed "hash" "I" = true) →
    ∃ h : Int32, i.field "hash" "I" = .ok (.int h) ∧
      h.toInt = (Text.weighted (Text.toUnits text)).bmod (2 ^ 32)

instance (c : Class) (f : TextField) : Decidable (c.KeepsText f) :=
  decidable_of_iff
    ((∃ g ∈ c.layout, g.name = "value") ∧
      (∀ g ∈ c.layout, g.name = "value" → g.descriptor = f.descriptor) ∧
        (f = .bytes → ∃ g ∈ c.layout, g.isNamed "coder" "B" = true))
    ⟨fun h => ⟨h.1, h.2.1, h.2.2⟩, fun h => ⟨h.value, h.only, h.coder⟩⟩

namespace Class.KeepsText

variable {c : Class} {f : TextField} (h : c.KeepsText f)

include h

theorem isNamed_value {g : Field} (hg : g ∈ c.layout) :
    g.isNamed "value" f.descriptor = (g.name == "value") := by
  rw [Field.isNamed, Bool.eq_iff_iff, Bool.and_eq_true, beq_iff_eq, beq_iff_eq]
  exact and_iff_left_of_imp (h.only g hg)

theorem exists_value : ∃ g ∈ c.layout, g.isNamed "value" f.descriptor = true := by
  rcases h.value with ⟨g, hg, hname⟩
  refine ⟨g, hg, ?_⟩
  rw [h.isNamed_value hg, beq_iff_eq]
  exact hname

theorem position :
    ∃ position, c.namedPosition? "value" = some position ∧
      c.fieldPosition c.name "value" f.descriptor = .ok position ∧
        (c.layout[position]?.map Field.descriptor).getD "" = f.descriptor := by
  rcases exists_fieldPosition h.exists_value with ⟨position, hposition⟩
  rcases named_of_fieldPosition hposition with ⟨g', hg', -, hdescriptor⟩
  refine ⟨position, ?_, hposition, ?_⟩
  · have hfound := fieldPosition_name.mp hposition
    unfold namedPosition?
    rw [List.findIdx?_eq_some_iff_getElem] at hfound ⊢
    rcases hfound with ⟨hlt, hhere, hbefore⟩
    refine ⟨hlt, ?_, ?_⟩
    · rw [← h.isNamed_value (List.getElem_mem hlt)]
      exact hhere
    · intro j hj
      rw [← h.isNamed_value (List.getElem_mem _)]
      exact hbefore j hj
  · rw [hg', ← hdescriptor]
    rfl

end Class.KeepsText

theorem Machine.KeepsText.textOf {m : Machine} {i : Instance} {f : TextField} {text : String}
    (h : m.KeepsText i f text) (hclass : i.cls.KeepsText f) {address : Nat}
    (hi : m.objects[address]? = some (.ofInstance i)) : m.textOf address = .ok text := by
  rcases hclass.position with ⟨position, hnamed, hposition, -⟩
  rcases h.value with ⟨contents, a, hvalue, ha, -, hstore⟩
  unfold Instance.field at hvalue
  rw [hposition] at hvalue
  have hreference : i.value position = .reference (some contents) := Except.ok.inj hvalue
  unfold Machine.textOf
  simp only [hi, hnamed, ha, hreference, hstore, Object.asInstance, Object.asArray, bind,
    Except.bind, Value.toReference]
  cases f with
  | chars => exact TextField.decodeText_chars m _ text
  | bytes =>
      rw [h.coder rfl]
      exact TextField.decodeText_bytes m text

/-!
# New strings
-/

namespace Machine

variable {m m₁ m₂ : Machine} {load : Loader} {cls : Class} {f : TextField} {text : String}

theorem newArrayWith_fits {arrayCls : ArrayClass} {contents : Store} (h : contents.size < 2 ^ 31)
    (m : Machine) :
    newArrayWith arrayCls contents m =
      .ok m.objects.size { m with objects := m.objects.push (.ofArray ⟨arrayCls, contents⟩) } := by
  have hlength : (Int32.ofNat contents.size).toInt = contents.size := Int32.toInt_ofNat_of_lt h
  have hneg : ¬ Int32.ofNat contents.size < 0 := by
    rw [Int32.lt_iff_toInt_lt, hlength]
    exact Int.not_lt.mpr (Int.natCast_nonneg _)
  have hsame : (Int32.ofNat contents.size).toInt.toNat = contents.size := by
    rw [hlength, Int.toNat_natCast]
  unfold newArrayWith
  dsimp only
  rw [if_neg hneg, if_neg (not_not_intro hsame)]
  rfl

theorem newArrayWith_exceeds (arrayCls : ArrayClass) {contents : Store}
    (h : 2 ^ 31 ≤ contents.size) (m : Machine) :
    ∃ fault, newArrayWith arrayCls contents m = .error (.fault fault) m := by
  have hne : (Int32.ofNat contents.size).toInt.toNat ≠ contents.size := by
    have hlt := Int32.toInt_lt (Int32.ofNat contents.size)
    omega
  unfold newArrayWith
  dsimp only
  rw [if_pos hne]
  split
  · exact ⟨_, rfl⟩
  · exact ⟨_, rfl⟩

def withCoding (f : TextField) (text : String) (i : Instance) : Instance :=
  match f.coding text with
  | some c => putIfPresent i "coder" "B" (.int c.code)
  | none => i

theorem withCoding_bytes (text : String) (i : Instance) :
    withCoding .bytes text i = putIfPresent i "coder" "B" (.int (TextField.coder text)) := by
  have hcode : (if Text.IsLatin text then Coding.latin1 else .utf16).code =
      TextField.coder text := by
    unfold TextField.coder
    split
    · rfl
    · rfl
  rw [← hcode]
  rfl

theorem withCoding_cls (f : TextField) (text : String) (i : Instance) :
    (withCoding f text i).cls = i.cls := by
  cases f with
  | chars => rfl
  | bytes => rw [withCoding_bytes, Charter.putIfPresent_cls]

theorem withCoding_full {i : Instance} (h : i.Full) : (withCoding f text i).Full := by
  cases f with
  | chars => exact h
  | bytes =>
      rw [withCoding_bytes]
      exact h.putIfPresent

theorem field_withCoding_of_ne {i : Instance} {name descriptor : String} (h : name ≠ "coder") :
    (withCoding f text i).field name descriptor = i.field name descriptor := by
  cases f with
  | chars => rfl
  | bytes => rw [withCoding_bytes, Instance.field_putIfPresent_of_ne h]

def textObject (cls : Class) (f : TextField) (text : String) (contents : Nat) : Instance :=
  putIfPresent
    (withCoding f text
      (putIfPresent (Instance.ofClass cls) "value" f.descriptor (.reference (some contents))))
    "hash" "I" (.int (Text.unitHash (Text.toUnits text)))

theorem textObject_cls (cls : Class) (f : TextField) (text : String) (contents : Nat) :
    (textObject cls f text contents).cls = cls := by
  rw [textObject, Charter.putIfPresent_cls, withCoding_cls, Charter.putIfPresent_cls]
  rfl

/-- The fields are of different names, so none of them is lost when another one is set. -/
theorem textObject_keeps (hkeeps : cls.KeepsText f) {contents : Nat} {arrayCls : ArrayClass}
    (hname : arrayCls.name = f.descriptor)
    (hcontents : m.objects[contents]? = some (.ofArray ⟨arrayCls, f.contents text⟩)) :
    m.KeepsText (textObject cls f text contents) f text := by
  have hfull := Instance.ofClass_full cls
  constructor
  · refine ⟨contents, _, ?_, hcontents, hname, rfl⟩
    rw [textObject, Instance.field_putIfPresent_of_ne (by decide),
      field_withCoding_of_ne (by decide)]
    exact Instance.field_putIfPresent hfull hkeeps.exists_value
  · intro hbytes
    subst hbytes
    rw [textObject, Instance.field_putIfPresent_of_ne (by decide), withCoding_bytes]
    apply Instance.field_putIfPresent hfull.putIfPresent
    rw [Charter.putIfPresent_cls]
    exact hkeeps.coder rfl
  · intro hhash
    refine ⟨_, ?_, Text.toInt_unitHash _⟩
    apply Instance.field_putIfPresent (withCoding_full hfull.putIfPresent)
    rw [withCoding_cls, Charter.putIfPresent_cls]
    rw [textObject_cls] at hhash
    exact hhash

theorem newString_of_class (hclass : load.loadClass stringName m = .ok cls m₁)
    (hkeeps : cls.KeepsText f) :
    newString load text m =
      (do
        let value ← newArrayWith (← load.loadArray f.descriptor) (f.contents text)
        alloc (.ofInstance (textObject cls f text value)) : MachineM Nat) m₁ := by
  rcases hkeeps.position with ⟨position, hnamed, hposition, hdescriptor⟩
  have hput (value : Nat) : (Instance.ofClass cls).setValue position (.reference (some value)) =
      putIfPresent (Instance.ofClass cls) "value" f.descriptor (.reference (some value)) := by
    have hfound : (Instance.ofClass cls).cls.fieldPosition (Instance.ofClass cls).cls.name "value"
      f.descriptor = .ok position := hposition
    unfold putIfPresent
    rw [hfound]
  have hencoded : (liftM (Except.ok (f.contents text, f.coding text) : Except Fault _) :
    MachineM (Store × Option Coding)) m₁ = .ok (f.contents text, f.coding text) m₁ := rfl
  unfold newString
  rw [bind_of_ok hclass]
  simp only [hnamed, hdescriptor, TextField.encodeText_eq]
  rw [bind_of_ok hencoded]
  simp only [hput]
  rfl

theorem size_contents (f : TextField) (text : String) :
    (f.contents text).size = (f.numbers text).length := by
  simp [TextField.contents, Store.size]

/-- A text for which class and array can be loaded, and which an array can hold, becomes a string;
its array is the last object before it. -/
theorem newString_eq_ok (hclass : load.loadClass stringName m = .ok cls m₁)
    (hkeeps : cls.KeepsText f) {arrayCls : ArrayClass}
    (harray : load.loadArray f.descriptor m₁ = .ok arrayCls m₂)
    (hsize : (f.numbers text).length < 2 ^ 31) :
    ∃ m', newString load text m = .ok (m₂.objects.size + 1) m' ∧
      m'.objects = (m₂.objects.push (.ofArray ⟨arrayCls, f.contents text⟩)).push
        (.ofInstance (textObject cls f text m₂.objects.size)) := by
  rw [← size_contents] at hsize
  rw [newString_of_class hclass hkeeps, bind_of_ok harray, bind_of_ok (newArrayWith_fits hsize m₂),
    ← Array.size_push (.ofArray ⟨arrayCls, f.contents text⟩)]
  exact ⟨_, rfl, rfl⟩

theorem newString_exceeds (hclass : load.loadClass stringName m = .ok cls m₁)
    (hkeeps : cls.KeepsText f) {arrayCls : ArrayClass}
    (harray : load.loadArray f.descriptor m₁ = .ok arrayCls m₂)
    (hsize : 2 ^ 31 ≤ (f.numbers text).length) :
    ∃ fault, newString load text m = .error (.fault fault) m₂ := by
  rw [← size_contents] at hsize
  rcases newArrayWith_exceeds arrayCls hsize m₂ with ⟨fault, hfails⟩
  rw [newString_of_class hclass hkeeps, bind_of_ok harray, bind_of_error hfails]
  exact ⟨fault, rfl⟩

theorem arrayClass_of_root {root : Class} (hroot : m.class? rootName = some root) {name : String}
    {e : Element} (helement : Descriptor.elementOf name = .ok e) :
    ∃ a m', arrayClass name m = .ok a m' ∧ a.name = name := by
  cases harray : m.array? name with
  | some entry =>
      have hname := List.find?_some harray
      rw [beq_iff_eq] at hname
      exact ⟨entry.cls, m, arrayClass_known harray, hname⟩
  | none => exact ⟨_, _, arrayClass_made harray hroot helement, rfl⟩

end Machine

section

variable {host : Host} {fuel fuel' : Nat} {x : Task} {m m₁ : Machine} {cls : Class}
  {f : TextField}

theorem Machine.Founded.loadArray (hm : m.Founded host.path) (hc : m.HasClass cls) (f : TextField)
    (fuel : Nat) :
    ∃ a m', (host.load (fuel + 1)).loadArray f.descriptor m = .ok a m' ∧
      a.name = f.descriptor := by
  rcases hm.rooted hc with ⟨root, hstanding⟩
  have harray : Descriptor.isArray f.descriptor = true := by cases f <;> decide
  have helement : Descriptor.elementOf f.descriptor = .ok f.element := by cases f <;> decide
  rcases arrayClass_of_root (class?_of_standing? hstanding) helement with ⟨a, m', ha, hname⟩
  refine ⟨a, m', ?_, hname⟩
  have hload : host.load (fuel + 1) f.descriptor m = .ok (.ofArray a) m' := by
    rw [Host.load_succ, Host.loadVia, loadWith_array harray, bind_of_ok ha]
    rfl
  unfold Loader.loadArray
  rw [bind_of_ok hload]
  rfl

/-- At any moment, a text that an array can hold becomes a string object if the class of strings can
be loaded and has a field for texts.  The object keeps the text, and the text is read back from
it. -/
theorem Host.Underway.string_keeps_text (hnatives : ∀ C, host.natives.Keeps C)
    (h : host.Underway fuel x m)
    (hload : (host.load fuel').loadClass stringName m = .ok cls m₁) (hkeeps : cls.KeepsText f)
    {text : String} (hsize : (f.numbers text).length < 2 ^ 31) :
    ∃ address m' i, newString (host.load fuel') text m = .ok address m' ∧
      m'.objects[address]? = some (.ofInstance i) ∧ i.cls = cls ∧ m'.KeepsText i f text ∧
        m'.textOf address = .ok text := by
  rcases (h.founded hnatives).1.loadClass hnatives hload with ⟨hm₁, -, hclass⟩
  have hname := class?_name hclass
  cases fuel' with
  | zero => cases hload
  | succ fuel' =>
      rcases hm₁.loadArray (hname ▸ hclass) f fuel' with ⟨arrayCls, m₂, harray, harrayName⟩
      rcases newString_eq_ok hload hkeeps harray hsize with ⟨m', hnew, hobjects⟩
      have hcontents : m'.objects[m₂.objects.size]? =
          some (.ofArray ⟨arrayCls, f.contents text⟩) := by
        rw [hobjects, Array.getElem?_push, Array.size_push, if_neg (by omega),
          Array.getElem?_push_size]
      have hobject : m'.objects[m₂.objects.size + 1]? =
          some (.ofInstance (textObject cls f text m₂.objects.size)) := by
        rw [hobjects, Array.getElem?_push, Array.size_push, if_pos rfl]
      have hcls := textObject_cls cls f text m₂.objects.size
      have hkept := textObject_keeps hkeeps harrayName hcontents
      refine ⟨_, m', _, hnew, hobject, hcls, hkept, hkept.textOf ?_ hobject⟩
      rw [hcls]
      exact hkeeps

end

namespace StringClass

/-!
A class of strings that keeps texts as bytes, and a text with a character of one byte and one of two
units.
-/

def file : List UInt8 :=
  ClassLayout.bytes
    { minor := 0, major := 52
      constants := [.utf8 stringName, .classRef 1, .utf8 rootName, .classRef 3, .utf8 "value",
        .utf8 "[B", .utf8 "coder", .utf8 "B", .utf8 "hash", .utf8 "I"]
      access := 0x31
      thisClass := 2
      superClass := 4
      interfaces := []
      fields := [⟨0x12, 5, 6, []⟩, ⟨0x12, 7, 8, []⟩, ⟨0x02, 9, 10, []⟩]
      methods := [], attributes := [] }

def host : Host :=
  Sample.host [(stringName, file)]

def loaded : Option (Class × Machine) :=
  match (host.load 8).loadClass stringName Machine.empty with
  | .ok c m => some (c, m)
  | .error _ _ => none

theorem eq_of_loaded {c : Class} {m : Machine} (h : loaded = some (c, m)) :
    (host.load 8).loadClass stringName Machine.empty = .ok c m := by
  unfold loaded at h
  split at h
  next hload =>
      cases h
      exact hload
  next => cases h

theorem loaded_facts :
    (loaded.map fun p => decide (p.1.KeepsText .bytes ∧
      ∃ g ∈ p.1.layout, g.isNamed "hash" "I" = true)) = some true := by
  decide +kernel

theorem text_facts :
    TextField.bytes.numbers "é😀" = [0x00, 0xE9, 0xD8, 0x3D, 0xDE, 0x00] ∧
      TextField.coder "é😀" = 1 ∧
        (Text.weighted (Text.toUnits "é😀")).bmod (2 ^ 32) = (1996812 : Int32).toInt := by
  decide +kernel

/-- The text is kept in six bytes with coder 1, and with its hash. -/
theorem text_kept :
    ∃ cls m₁, (host.load 8).loadClass stringName Machine.empty = .ok cls m₁ ∧
      cls.KeepsText .bytes ∧
        TextField.bytes.numbers "é😀" = [0x00, 0xE9, 0xD8, 0x3D, 0xDE, 0x00] ∧
          ∃ address m' i, newString (host.load 8) "é😀" Machine.empty = .ok address m' ∧
            m'.objects[address]? = some (.ofInstance i) ∧
              i.field "coder" "B" = .ok (.int 1) ∧ i.field "hash" "I" = .ok (.int 1996812) ∧
                m'.textOf address = .ok "é😀" := by
  have hunderway : host.Underway 8 (.request .bootstrap) Machine.empty :=
    .request 8 .bootstrap .empty trivial
  rcases Option.map_eq_some_iff.mp loaded_facts with ⟨⟨cls, m₁⟩, hloaded, hfacts⟩
  rcases of_decide_eq_true hfacts with ⟨hkeeps, hhash⟩
  have hload := eq_of_loaded hloaded
  have hsize : (TextField.bytes.numbers "é😀").length < 2 ^ 31 := by
    rw [text_facts.1]
    decide
  rcases hunderway.string_keeps_text Native.library_keeps hload hkeeps hsize with
    ⟨address, m', i, hnew, hobject, hcls, hkept, htext⟩
  refine ⟨cls, m₁, hload, hkeeps, text_facts.1, address, m', i, hnew, hobject, ?_, ?_, htext⟩
  · rw [hkept.coder rfl, text_facts.2.1]
  · rcases hkept.hash (hcls ▸ hhash) with ⟨h, hfield, hsum⟩
    rw [hfield, Int32.toInt_inj.mp (hsum.trans text_facts.2.2)]

end StringClass

end Bytecode
