import Bytecode.Proofs.Class.ArrayTypes
import Bytecode.Proofs.History.TypeTests

/-!
# Arrays of arrays

An array type is a number of brackets and a component behind them.  The brackets of two array types
are taken away in pairs, and what is left decides: components of one kind are compared with each
other, and an array that is left against a component fits the types above all arrays.
-/

namespace Bytecode
namespace Descriptor

theorem classNameOf?_eq_some {descriptor name : String} :
    classNameOf? descriptor.toList = some name ↔ descriptor = ofClassName name := by
  constructor
  · intro h
    rcases ArrayClass.eq_cons_of_classNameOf? h with ⟨rest, hlist⟩
    rw [hlist, classNameOf?] at h
    split at h
    next hlast =>
        have hrest := List.dropLast_append_getLast? ';' hlast
        apply String.toList_injective
        cases h
        simp [hlist, ofClassName, hrest]
    next => cases h
  · rintro rfl
    simp [ofClassName, classNameOf?]

end Descriptor

namespace ArrayClass

open Descriptor Machine

/-- The descriptor of the elements is that of the class that `componentName` gives, or there is no
such class and it is given itself. -/
theorem component_eq (a : ArrayClass) :
    a.component = ofClassName a.componentName ∨
      (∀ name, a.component ≠ ofClassName name) ∧ a.component = a.componentName := by
  cases hclass : classNameOf? a.component.toList with
  | some name =>
      rw [componentName, hclass]
      exact .inl (classNameOf?_eq_some.mp hclass)
  | none =>
      refine .inr ⟨fun name heq => ?_, by rw [componentName, hclass]; rfl⟩
      rw [classNameOf?_eq_some.mpr heq] at hclass
      cases hclass

/-!
# Elements

What can fit into an element is decided by the first characters of the two descriptors.
-/

variable {find? : String → Option Class} {source target : List Char}

theorem fits_brackets : Fits find? ('[' :: source) ('[' :: target) ↔ Fits find? source target := by
  constructor
  · intro h
    cases h with
    | same => exact .same source
    | array h => exact h
    | above htarget => cases htarget
    | classes hsource => cases hsource
  · exact .array

theorem fits_bracket_left (htarget : ∀ rest, target ≠ '[' :: rest) :
    Fits find? ('[' :: source) target ↔
      ∃ name ∈ rootName :: arrayInterfaces, classNameOf? target = some name := by
  constructor
  · intro h
    cases h with
    | same => exact absurd rfl (htarget source)
    | array => exact absurd rfl (htarget _)
    | above hclass hname => exact ⟨_, List.mem_cons.mpr hname, hclass⟩
    | classes hsource => cases hsource
  · rintro ⟨name, hname, hclass⟩
    exact .above hclass (List.mem_cons.mp hname)

theorem fits_plain (hsource : ∀ rest, source ≠ '[' :: rest) :
    Fits find? source target ↔
      source = target ∨ ∃ name other c d, classNameOf? source = some name ∧
        classNameOf? target = some other ∧ find? name = some c ∧ find? other = some d ∧
          c.looksLike d = true := by
  constructor
  · intro h
    cases h with
    | same => exact .inl rfl
    | array => exact absurd rfl (hsource _)
    | above => exact absurd rfl (hsource _)
    | classes hname hother hc hd hlooks => exact .inr ⟨_, _, _, _, hname, hother, hc, hd, hlooks⟩
  · rintro (rfl | ⟨name, other, c, d, hname, hother, hc, hd, hlooks⟩)
    · exact .same source
    · exact .classes hname hother hc hd hlooks

theorem not_fits_bracket_right (hsource : ∀ rest, source ≠ '[' :: rest) :
    ¬ Fits find? source ('[' :: target) := by
  rw [fits_plain hsource]
  rintro (heq | ⟨name, other, c, d, -, hother, -⟩)
  · exact hsource target heq
  · cases hother

theorem fits_replicate (hsource : ∀ rest, source ≠ '[' :: rest)
    (htarget : ∀ rest, target ≠ '[' :: rest) (k l : Nat) :
    Fits find? (List.replicate k '[' ++ source) (List.replicate l '[' ++ target) ↔
      (k = l ∧ Fits find? source target) ∨
        (l < k ∧ ∃ name ∈ rootName :: arrayInterfaces, classNameOf? target = some name) := by
  -- a bracket is taken from both sides until one of them has none left
  induction l generalizing k with
  | zero =>
      cases k with
      | zero => simp
      | succ k => simpa [List.replicate_succ] using fits_bracket_left htarget
  | succ l ih =>
      cases k with
      | zero => simpa [List.replicate_succ] using not_fits_bracket_right hsource
      | succ k => simpa [List.replicate_succ, fits_brackets] using ih k

/-!
# Array types of any dimension
-/

theorem isArray_of_mem : ∀ name ∈ rootName :: arrayInterfaces, isArray name = false := by
  decide

theorem looksLike_iff_mem {a : ArrayClass} {target : String} :
    a.looksLike find? target = true ↔
      a.name = target ∨ target ∈ a.parent.name :: arrayInterfaces ∨
        ∃ component, target.toList = '[' :: component ∧
          Fits find? a.component.toList component := by
  rw [looksLike_iff, List.mem_cons, eq_comm (a := target), or_assoc]

/-- Elements matter to other array types alone. -/
theorem looksLike_iff_of_not_isArray {a : ArrayClass} {target : String}
    (hname : isArray a.name = true) (htarget : isArray target = false) :
    a.looksLike find? target = true ↔ target ∈ a.parent.name :: arrayInterfaces := by
  rw [looksLike_iff_mem]
  constructor
  · rintro (rfl | habove | ⟨component, hlist, -⟩)
    · exact Bool.noConfusion (hname.symm.trans htarget)
    · exact habove
    · exact absurd hlist (toList_ne_bracket htarget component)
  · intro habove
    exact .inr (.inl habove)

theorem looksLike_iff_fits {a : ArrayClass} {k l : Nat} {e f : String}
    (hparent : a.parent.name = rootName) (hname : a.name = bracketed (k + 1) e) :
    a.looksLike find? (bracketed (l + 1) f) = true ↔
      Fits find? (List.replicate k '[' ++ e.toList) (List.replicate l '[' ++ f.toList) := by
  have hcomponent : a.component.toList = List.replicate k '[' ++ e.toList := by
    simp [component, hname, toList_bracketed, List.replicate_succ]
  have htarget : (bracketed (l + 1) f).toList = '[' :: (List.replicate l '[' ++ f.toList) :=
    toList_bracketed (l + 1) f
  rw [looksLike_iff_mem, hcomponent, hparent]
  constructor
  · rintro (heq | habove | ⟨component, hlist, hfits⟩)
    · have hsame := congrArg String.toList (hname.symm.trans heq)
      rw [toList_bracketed, htarget] at hsame
      rw [← (List.cons.inj hsame).2]
      exact .same _
    · exact absurd htarget (toList_ne_bracket (isArray_of_mem _ habove) _)
    · cases htarget.symm.trans hlist
      exact hfits
  · intro hfits
    exact .inr (.inr ⟨_, htarget, hfits⟩)

theorem fits_component_iff {machine : Machine} {e f : String} (he : isArray e = false) :
    Fits machine.class? e.toList f.toList ↔
      e = f ∨ ∃ c d : Class, e = ofClassName c.name ∧ f = ofClassName d.name ∧
        machine.class? c.name = some c ∧ machine.class? d.name = some d ∧
          c.looksLike d = true := by
  simp only [fits_plain (toList_ne_bracket he), String.toList_inj, classNameOf?_eq_some]
  constructor
  · rintro (heq | ⟨name, other, c, d, hname, hother, hc, hd, hlooks⟩)
    · exact .inl heq
    · cases class?_name hc
      cases class?_name hd
      exact .inr ⟨c, d, hname, hother, hc, hd, hlooks⟩
  · rintro (heq | ⟨c, d, hname, hother, hc, hd, hlooks⟩)
    · exact .inl heq
    · exact .inr ⟨c.name, d.name, c, d, hname, hother, hc, hd, hlooks⟩

/-- An array may be used as an array of as many dimensions if its component may be used as the other
component, and as an array of fewer dimensions if that is one of a type above all arrays. -/
theorem looksLike_bracketed_iff (machine : Machine) {root : Class} {a : ArrayClass} {m : Nat}
    {e : String} (hroot : root.name = rootName) (ha : ofName (bracketed m e) root = .ok a)
    (he : isArray e = false) :
    (∀ n f, 1 ≤ n → isArray f = false →
      (a.looksLike machine.class? (bracketed n f) = true ↔
        (m = n ∧ (e = f ∨ ∃ c d : Class, e = ofClassName c.name ∧ f = ofClassName d.name ∧
          machine.class? c.name = some c ∧ machine.class? d.name = some d ∧
            c.looksLike d = true)) ∨
        (n < m ∧ ∃ name ∈ rootName :: arrayInterfaces, f = ofClassName name))) ∧
    ∀ target, isArray target = false →
      (a.looksLike machine.class? target = true ↔ target ∈ rootName :: arrayInterfaces) := by
  rcases ofName_eq_ok ha with ⟨hname, rfl, harray⟩
  constructor
  · intro n f hn hf
    cases m with
    | zero =>
        rw [bracketed, List.replicate_zero, List.nil_append, String.ofList_toList, he] at harray
        cases harray
    | succ k =>
        obtain ⟨l, rfl⟩ := Nat.exists_eq_add_of_le' hn
        rw [looksLike_iff_fits hroot hname,
          fits_replicate (toList_ne_bracket he) (toList_ne_bracket hf), fits_component_iff he]
        simp only [Nat.add_right_cancel_iff, Nat.add_lt_add_iff_right, classNameOf?_eq_some]
  · intro target htarget
    rw [← hroot]
    exact looksLike_iff_of_not_isArray (hname ▸ harray) htarget

end ArrayClass

namespace LateElementClass

open ArrayClass Descriptor Machine

theorem classes_look_alike :
    Layers.looks withElementClass "B" "A" = some (true, false) ∧
      Layers.looks withElementClass rootName rootName = some (true, false) := by
  decide +kernel

/-- Arrays of arrays of `B`, once `B` is loaded. -/
theorem nested_arrays_covariant :
    ∃ root a, root.name = rootName ∧ ofName (bracketed 2 "LB;") root = .ok a ∧
      isArray "LB;" = false ∧
      a.looksLike withElementClass.class? (bracketed 2 "LA;") = true ∧
      a.looksLike withElementClass.class? (bracketed 1 "Ljava/lang/Cloneable;") = true ∧
      ¬ a.looksLike withElementClass.class? (bracketed 1 "LA;") = true ∧
      ¬ a.looksLike withElementClass.class? (bracketed 3 "LA;") = true ∧
      a.looksLike withElementClass.class? "java/io/Serializable" = true := by
  rcases Layers.looks_eq classes_look_alike.1 with ⟨c, d, hc, hd, hlooks, -⟩
  rcases Layers.looks_eq classes_look_alike.2 with ⟨root, -, hroot, -⟩
  have hname := class?_name hroot
  have helement : elementOf (bracketed 2 "LB;") = .ok .reference := by
    decide +kernel
  have ha : ofName (bracketed 2 "LB;") root = .ok ⟨bracketed 2 "LB;", .reference, root⟩ := by
    unfold ofName
    rw [helement]
    rfl
  have hplain : isArray "LB;" = false ∧ isArray "LA;" = false ∧
      isArray "Ljava/lang/Cloneable;" = false ∧ isArray "java/io/Serializable" = false := by
    decide
  have hlaw := looksLike_bracketed_iff withElementClass hname ha hplain.1
  refine ⟨root, _, hname, ha, hplain.1, ?_, ?_, ?_, ?_, ?_⟩
  · refine (hlaw.1 2 "LA;" (by decide) hplain.2.1).mpr (.inl ⟨rfl, .inr ⟨c, d, ?_⟩⟩)
    rw [class?_name hc, class?_name hd]
    exact ⟨rfl, rfl, hc, hd, hlooks⟩
  · exact (hlaw.1 1 _ (by decide) hplain.2.2.1).mpr
      (.inr ⟨by decide, "java/lang/Cloneable", by decide, rfl⟩)
  · rw [hlaw.1 1 _ (by decide) hplain.2.1]
    rintro (⟨hdimensions, -⟩ | ⟨-, name, hmem, heq⟩)
    · cases hdimensions
    · revert name
      decide
  · rw [hlaw.1 3 _ (by decide) hplain.2.1]
    rintro (⟨hdimensions, -⟩ | ⟨hfewer, -⟩)
    · cases hdimensions
    · exact absurd hfewer (by decide)
  · exact (hlaw.2 _ hplain.2.2.2).mpr (by decide)

end LateElementClass
end Bytecode
