import Bytecode.Class.ArrayClass
import Bytecode.Proofs.Descriptor.Grammar

/-!
# Array types

A name is the name of an array type when it is a bracket in front of the text of a type.  The
component of an array type then is a type of its own, and decides the kind of the elements; a name
with a bracket is accepted as an array type exactly when it is accepted as the type of a field.
-/

namespace Bytecode
namespace Descriptor

/-!
# Components
-/

namespace TypeTree

def element : TypeTree → Element
  | byte => .byte
  | char => .char
  | double => .double
  | float => .float
  | int => .int
  | long => .long
  | short => .short
  | boolean => .boolean
  | object _ => .reference
  | array _ => .reference

theorem fieldType_text {t : TypeTree} (h : t.WellNamed) :
    fieldType (String.ofList t.text) = .ok t.valueType :=
  fieldType_eq_ok.mpr ⟨t, h, String.toList_ofList.symm, rfl⟩

def nest (t : TypeTree) : Nat → TypeTree
  | 0 => t
  | dimensions + 1 => array (t.nest dimensions)

theorem WellNamed.nest {t : TypeTree} (h : t.WellNamed) (dimensions : Nat) :
    (t.nest dimensions).WellNamed := by
  induction dimensions with
  | zero => exact h
  | succ dimensions ih => exact ih

theorem text_nest (t : TypeTree) (dimensions : Nat) :
    (t.nest dimensions).text = List.replicate dimensions '[' ++ t.text := by
  induction dimensions with
  | zero => rfl
  | succ dimensions ih => rw [nest, text, ih, List.replicate_succ, List.cons_append]

theorem exists_component {t : TypeTree} (h : t.WellNamed) {dimensions : Nat}
    (hbrackets : dimensions ≤ (t.text.takeWhile (· = '[')).length) :
    ∃ u : TypeTree, u.WellNamed ∧ t.text = List.replicate dimensions '[' ++ u.text := by
  induction dimensions generalizing t with
  | zero => exact ⟨t, h, rfl⟩
  | succ dimensions ih =>
      cases t with
      | array component =>
          have hfewer : dimensions ≤ (component.text.takeWhile (· = '[')).length := by
            simpa [text] using hbrackets
          have hcomponent : component.WellNamed := h
          obtain ⟨u, hu, htext⟩ := ih hcomponent hfewer
          refine ⟨u, hu, ?_⟩
          rw [text, htext, List.replicate_succ, List.cons_append]
      | _ => simp [text] at hbrackets

end TypeTree

/-!
# Names with brackets
-/

theorem component?_eq_some {name component : String} :
    component? name = some component ↔ name.toList = '[' :: component.toList := by
  unfold component?
  split
  next rest hlist => simp [hlist, ← String.toList_inj]
  next hplain => simpa using hplain component.toList

theorem isArray_iff {name : String} : isArray name = true ↔ ∃ rest, name.toList = '[' :: rest := by
  unfold isArray component?
  split
  next rest hlist => simp [hlist]
  next hplain => simpa using hplain

theorem toList_ne_bracket {name : String} (h : isArray name = false) (rest : List Char) :
    name.toList ≠ '[' :: rest := by
  intro hlist
  rw [isArray_iff.mpr ⟨rest, hlist⟩] at h
  cases h

def bracketed (dimensions : Nat) (component : String) : String :=
  String.ofList (List.replicate dimensions '[' ++ component.toList)

theorem toList_bracketed (dimensions : Nat) (component : String) :
    (bracketed dimensions component).toList =
      List.replicate dimensions '[' ++ component.toList :=
  String.toList_ofList

theorem bracketed_zero (component : String) : bracketed 0 component = component :=
  String.ofList_toList

theorem component?_bracketed (dimensions : Nat) (component : String) :
    component? (bracketed (dimensions + 1) component) = some (bracketed dimensions component) := by
  rw [component?_eq_some, toList_bracketed, toList_bracketed, List.replicate_succ, List.cons_append]

theorem isArray_bracketed (dimensions : Nat) (component : String) :
    isArray (bracketed (dimensions + 1) component) = true := by
  rw [isArray, component?_bracketed]
  rfl

theorem drop_bracketed {dimensions k : Nat} (h : k ≤ dimensions) (component : String) :
    String.ofList ((bracketed dimensions component).toList.drop k) =
      bracketed (dimensions - k) component := by
  rw [toList_bracketed, List.drop_append_of_le_length (by simpa using h), List.drop_replicate,
    bracketed]

/-!
# Accepted names
-/

theorem elementOf_text {t : TypeTree} (h : t.WellNamed) :
    elementOf (String.ofList ('[' :: t.text)) = .ok t.element := by
  have hcomponent : component? (String.ofList ('[' :: t.text)) = some (String.ofList t.text) := by
    rw [component?_eq_some, String.toList_ofList, String.toList_ofList]
  have hreference (hfirst : Element.ofComponent (String.ofList t.text) = .ok .reference) :
      elementOf (String.ofList ('[' :: t.text)) = .ok .reference := by
    unfold elementOf
    simp only [hcomponent, hfirst, TypeTree.fieldType_text h, bind, Except.bind, if_true]
    rfl
  cases t with
  | object name =>
      apply hreference
      unfold Element.ofComponent
      rw [String.toList_ofList]
      rfl
  | array component =>
      apply hreference
      unfold Element.ofComponent
      rw [String.toList_ofList]
      rfl
  | _ => rfl

theorem ofComponent_eq_ok {component : String} {e : Element} (he : e ≠ .reference)
    (h : Element.ofComponent component = .ok e) :
    ∃ (t : TypeTree) (rest : List Char), t.WellNamed ∧ t.text.length = 1 ∧
      component.toList = t.text ++ rest := by
  unfold Element.ofComponent at h
  split at h
  next rest htext => exact ⟨.boolean, rest, trivial, rfl, htext⟩
  next rest htext => exact ⟨.byte, rest, trivial, rfl, htext⟩
  next rest htext => exact ⟨.char, rest, trivial, rfl, htext⟩
  next rest htext => exact ⟨.short, rest, trivial, rfl, htext⟩
  next rest htext => exact ⟨.int, rest, trivial, rfl, htext⟩
  next rest htext => exact ⟨.long, rest, trivial, rfl, htext⟩
  next rest htext => exact ⟨.float, rest, trivial, rfl, htext⟩
  next rest htext => exact ⟨.double, rest, trivial, rfl, htext⟩
  next => exact absurd (Except.ok.inj h).symm he
  next => exact absurd (Except.ok.inj h).symm he
  next => cases h

theorem exists_text_of_elementOf {name : String} {e : Element} (h : elementOf name = .ok e) :
    ∃ t : TypeTree, t.WellNamed ∧ name.toList = '[' :: t.text := by
  unfold elementOf at h
  cases hcomponent : component? name with
  | none =>
      rw [hcomponent] at h
      cases h
  | some component =>
      rw [component?_eq_some.mp hcomponent]
      cases hfirst : Element.ofComponent component with
      | error f =>
          simp only [hcomponent, hfirst] at h
          cases h
      | ok found =>
          simp only [hcomponent, hfirst, bind, Except.bind] at h
          split at h
          next =>
              cases htype : fieldType component with
              | error f =>
                  rw [htype] at h
                  cases h
              | ok type =>
                  obtain ⟨t, ht, htext, -⟩ := fieldType_eq_ok.mp htype
                  exact ⟨t, ht, congrArg _ htext.symm⟩
          next hreference =>
              split at h
              next => cases h
              next hlength =>
                  obtain ⟨t, rest, ht, hone, htext⟩ := ofComponent_eq_ok hreference hfirst
                  rw [Decidable.not_not, ← String.length_toList, htext, List.length_append, hone,
                    Nat.add_eq_left, List.length_eq_zero_iff] at hlength
                  rw [htext, hlength, List.append_nil]
                  exact ⟨t, ht, rfl⟩

theorem exists_bracketed {name : String} {e : Element} (h : elementOf name = .ok e)
    {dimensions : Nat} (hbrackets : dimensions ≤ (name.toList.takeWhile (· = '[')).length) :
    ∃ u : TypeTree, u.WellNamed ∧ name = bracketed dimensions (String.ofList u.text) := by
  obtain ⟨t, ht, htext⟩ := exists_text_of_elementOf h
  rw [htext] at hbrackets
  obtain ⟨u, hu, hcomponent⟩ := (TypeTree.array t).exists_component ht hbrackets
  refine ⟨u, hu, ?_⟩
  rw [bracketed, String.toList_ofList, ← hcomponent, TypeTree.text, ← htext, String.ofList_toList]

theorem elementOf_bracketed {u : TypeTree} (hu : u.WellNamed) (dimensions : Nat) :
    elementOf (bracketed (dimensions + 1) (String.ofList u.text)) =
      .ok (u.nest dimensions).element := by
  have hname : bracketed (dimensions + 1) (String.ofList u.text) =
      String.ofList ('[' :: (u.nest dimensions).text) := by
    rw [bracketed, String.toList_ofList, TypeTree.text_nest, List.replicate_succ, List.cons_append]
  rw [hname]
  exact elementOf_text (hu.nest dimensions)

/-- A name is accepted as an array type when it is a bracket in front of the text of a type. -/
theorem elementOf_eq_ok {name : String} {e : Element} :
    elementOf name = .ok e ↔
      ∃ t : TypeTree, t.WellNamed ∧ name.toList = '[' :: t.text ∧ t.element = e := by
  constructor
  · intro h
    rcases exists_text_of_elementOf h with ⟨t, ht, htext⟩
    refine ⟨t, ht, htext, ?_⟩
    have hname : name = String.ofList ('[' :: t.text) := by rw [← htext, String.ofList_toList]
    rw [hname, elementOf_text ht] at h
    exact Except.ok.inj h
  · rintro ⟨t, ht, htext, rfl⟩
    rw [← String.ofList_toList (s := name), htext]
    exact elementOf_text ht

theorem exists_text_of_bracketed {t : TypeTree} (h : t.WellNamed) (dimensions : Nat)
    {rest : List Char} (htext : t.text = List.replicate dimensions '[' ++ rest) :
    ∃ u : TypeTree, u.WellNamed ∧ u.text = rest := by
  have hbrackets : dimensions ≤ (t.text.takeWhile (· = '[')).length := by
    rw [htext, List.takeWhile_append_of_pos (by simp)]
    simp
  rcases t.exists_component h hbrackets with ⟨u, hu, hsame⟩
  exact ⟨u, hu, List.append_cancel_left (hsame.symm.trans htext)⟩

theorem fieldType_bracket {name : String} {rest : List Char} (hname : name.toList = '[' :: rest) :
    (∃ type, fieldType name = .ok type) ↔ ∃ t : TypeTree, t.WellNamed ∧ t.text = rest := by
  constructor
  · rintro ⟨type, h⟩
    rcases fieldType_eq_ok.mp h with ⟨t, ht, htext, -⟩
    exact exists_text_of_bracketed ht 1 (htext.trans hname)
  · rintro ⟨t, ht, rfl⟩
    exact ⟨.reference, fieldType_eq_ok.mpr ⟨.array t, ht, hname.symm, rfl⟩⟩

namespace TypeTree

theorem text_eq_letter {t : TypeTree} (h : t.element ≠ .reference) :
    String.ofList t.text = t.element.letter := by
  cases t with
  | object name => exact absurd rfl h
  | array component => exact absurd rfl h
  | _ => rfl

theorem element_eq_reference {t : TypeTree} (h : t.WellNamed) :
    t.element = .reference ↔
      (∃ name : String, ';' ∉ name.toList ∧ String.ofList t.text = ofClassName name) ∨
        ∃ u : TypeTree, u.WellNamed ∧ t.text = '[' :: u.text := by
  constructor
  · intro hreference
    cases t with
    | object name =>
        refine .inl ⟨String.ofList name, String.toList_ofList.symm ▸ h, ?_⟩
        apply String.toList_injective
        simp [text, ofClassName]
    | array component => exact .inr ⟨component, h, rfl⟩
    | _ => cases hreference
  · rintro (⟨name, -, hclass⟩ | ⟨u, -, hbracket⟩)
    · have htext : t.text = 'L' :: (name.toList ++ [';']) := by
        simpa [ofClassName] using congrArg String.toList hclass
      cases t with
      | object other => rfl
      | array component => rfl
      | _ => simp [text] at htext
    · cases t with
      | object other => rfl
      | array component => rfl
      | _ => simp [text] at hbracket

end TypeTree

end Descriptor

namespace ArrayClass

open Descriptor

variable {name : String} {root : Class} {a : ArrayClass}

theorem ofName_eq_ok_iff :
    ofName name root = .ok a ↔
      ∃ t : TypeTree, t.WellNamed ∧ name.toList = '[' :: t.text ∧ a = ⟨name, t.element, root⟩ := by
  unfold ofName
  constructor
  · intro h
    cases helement : elementOf name with
    | error e =>
        rw [helement] at h
        cases h
    | ok element =>
        rw [helement] at h
        cases h
        rcases elementOf_eq_ok.mp helement with ⟨t, ht, htext, rfl⟩
        exact ⟨t, ht, htext, rfl⟩
  · rintro ⟨t, ht, htext, rfl⟩
    rw [elementOf_eq_ok.mpr ⟨t, ht, htext, rfl⟩]
    rfl

theorem ofName_eq_ok (h : ofName name root = .ok a) :
    a.name = name ∧ a.parent = root ∧ isArray name = true := by
  rcases ofName_eq_ok_iff.mp h with ⟨t, -, htext, rfl⟩
  exact ⟨rfl, rfl, isArray_iff.mpr ⟨_, htext⟩⟩

theorem exists_ofName_iff :
    (∃ a, ofName name root = .ok a) ↔
      ∃ t : TypeTree, t.WellNamed ∧ name.toList = '[' :: t.text := by
  constructor
  · rintro ⟨a, h⟩
    rcases ofName_eq_ok_iff.mp h with ⟨t, ht, htext, -⟩
    exact ⟨t, ht, htext⟩
  · rintro ⟨t, ht, htext⟩
    exact ⟨_, ofName_eq_ok_iff.mpr ⟨t, ht, htext, rfl⟩⟩

theorem ofName_of_bracketed (h : ofName name root = .ok a) {dimensions : Nat} {component : String}
    (hname : name = bracketed dimensions component) (hcomponent : isArray component = true) :
    ∃ b, ofName component root = .ok b := by
  rcases ofName_eq_ok_iff.mp h with ⟨t, ht, htext, -⟩
  rcases isArray_iff.mp hcomponent with ⟨rest, hrest⟩
  have hbrackets : (TypeTree.array t).text = List.replicate (dimensions + 1) '[' ++ rest := by
    rw [TypeTree.text, ← htext, hname, toList_bracketed, hrest, List.replicate_succ',
      List.append_assoc, List.singleton_append]
  rcases exists_text_of_bracketed (t := .array t) ht _ hbrackets with ⟨u, hu, rfl⟩
  exact exists_ofName_iff.mpr ⟨u, hu, hrest⟩

/-- A name is accepted as an array type exactly when it has a bracket in front and is accepted as
the type of a field.  The elements then are references when the component is a class type or is
accepted as an array type itself, and else are of the kind whose letter the component is.  Behind
any number of brackets, what has a bracket in front is accepted again. -/
theorem accepted_iff_fieldType (name : String) (root : Class) :
    ((∃ a, ofName name root = .ok a) ↔
      isArray name = true ∧ ∃ type, fieldType name = .ok type) ∧
    ∀ a, ofName name root = .ok a →
      a.name = name ∧
      (a.element = .reference ↔
        (∃ other : String, ';' ∉ other.toList ∧ a.component = ofClassName other) ∨
          ∃ b, ofName a.component root = .ok b) ∧
      (a.element ≠ .reference → a.component = a.element.letter) ∧
      ∀ dimensions component, name = bracketed dimensions component → isArray component = true →
        ∃ b, ofName component root = .ok b := by
  constructor
  · constructor
    · intro h
      rcases exists_ofName_iff.mp h with ⟨t, ht, htext⟩
      exact ⟨isArray_iff.mpr ⟨_, htext⟩, (fieldType_bracket htext).mpr ⟨t, ht, rfl⟩⟩
    · rintro ⟨harray, htype⟩
      rcases isArray_iff.mp harray with ⟨rest, hname⟩
      rcases (fieldType_bracket hname).mp htype with ⟨t, ht, rfl⟩
      exact exists_ofName_iff.mpr ⟨t, ht, hname⟩
  · intro a h
    refine ⟨(ofName_eq_ok h).1, ?_, ?_, fun _ _ => ofName_of_bracketed h⟩
    · rcases ofName_eq_ok_iff.mp h with ⟨t, ht, htext, rfl⟩
      have hcomponent : component ⟨name, t.element, root⟩ = String.ofList t.text := by
        rw [component, htext]
        rfl
      rw [hcomponent, exists_ofName_iff, String.toList_ofList]
      exact TypeTree.element_eq_reference ht
    · rcases ofName_eq_ok_iff.mp h with ⟨t, ht, htext, rfl⟩
      intro hletter
      rw [component, htext]
      exact TypeTree.text_eq_letter hletter

end ArrayClass

namespace RowsOfTexts

open ArrayClass Descriptor

def root : Class := .mk ⟨"java/lang/Object", .ofWord 0x0021, [], [], []⟩ none []

/-- Rows of texts are arrays, and so is each row.  An array of `void` is none, and neither is a name
with text behind its type. -/
theorem rows_accepted :
    (∃ a, ofName "[[Ljava/lang/String;" root = .ok a ∧ a.element = .reference ∧
      ∃ b, ofName a.component root = .ok b) ∧
    (∃ a, ofName "[Ljava/lang/String;" root = .ok a ∧ a.element = .reference) ∧
    (∃ a, ofName "[J" root = .ok a ∧ a.element ≠ .reference ∧ a.component = a.element.letter) ∧
    (¬ ∃ a, ofName "[[V" root = .ok a) ∧ ¬ ∃ a, ofName "[Jx" root = .ok a := by
  rcases accepted_iff_fieldType "[[Ljava/lang/String;" root with ⟨hrows, hrow⟩
  rcases accepted_iff_fieldType "[Ljava/lang/String;" root with ⟨htexts, htext⟩
  have hlongs : ofName "[J" root = .ok ⟨"[J", .long, root⟩ := rfl
  refine ⟨?_, ?_, ?_, ?_, ?_⟩
  · rcases hrows.mpr ⟨by decide, .reference, rfl⟩ with ⟨a, ha⟩
    rcases hrow a ha with ⟨hname, hkind, -, hagain⟩
    have hcomponent : a.component = "[Ljava/lang/String;" := by
      rw [component, hname]
      decide
    have hinner : ∃ b, ofName a.component root = .ok b := by
      rw [hcomponent]
      exact hagain 1 _ (by decide) (by decide)
    exact ⟨a, ha, hkind.mpr (.inr hinner), hinner⟩
  · rcases htexts.mpr ⟨by decide, .reference, rfl⟩ with ⟨a, ha⟩
    rcases htext a ha with ⟨hname, hkind, -⟩
    have hcomponent : a.component = ofClassName "java/lang/String" := by
      rw [component, hname]
      decide
    exact ⟨a, ha, hkind.mpr (.inl ⟨_, by decide, hcomponent⟩)⟩
  · rcases (accepted_iff_fieldType "[J" root).2 _ hlongs with ⟨-, -, hletter, -⟩
    have hplain : Element.long ≠ .reference := by decide
    exact ⟨_, hlongs, hplain, hletter hplain⟩
  · rw [(accepted_iff_fieldType "[[V" root).1]
    rintro ⟨-, type, htype⟩
    cases htype
  · rw [(accepted_iff_fieldType "[Jx" root).1]
    rintro ⟨-, type, htype⟩
    cases htype

end RowsOfTexts
end Bytecode
