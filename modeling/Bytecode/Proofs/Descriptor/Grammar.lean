import Bytecode.Descriptor.Grammar
import Bytecode.Proofs.Contract.Faults

/-!
# Descriptors read by their grammar

Reading a type off the front of a text undoes writing a tree in front of a rest, in both directions
and for every rest.  Hence a text is read as a field or method descriptor exactly when it is the
text of a tree, and what is read is what the tree says.
-/

namespace Bytecode
namespace Descriptor

/-!
# Class names
-/

theorem afterSemicolon?_eq_some {text rest : List Char} :
    afterSemicolon? text = some rest ↔ ∃ name, ';' ∉ name ∧ text = name ++ ';' :: rest := by
  constructor
  · intro h
    fun_induction afterSemicolon? text with
    | case1 => cases h
    | case2 rest =>
        cases h
        exact ⟨[], List.not_mem_nil, rfl⟩
    | case3 c text hne ih =>
        rcases ih h with ⟨name, hname, rfl⟩
        refine ⟨c :: name, ?_, rfl⟩
        rw [List.mem_cons, not_or]
        exact ⟨fun hc => hne hc.symm, hname⟩
  · intro h
    rcases h with ⟨name, hname, rfl⟩
    induction name with
    | nil => rfl
    | cons c name ih =>
        rw [List.mem_cons, not_or] at hname
        rw [List.cons_append, afterSemicolon?]
        · exact ih hname.2
        · exact fun hc => hname.1 hc.symm

/-!
# Types without brackets
-/

theorem ofLetter?_eq_some {c : Char} {e : ValueType} (h : ofLetter? c = some e) :
    c = 'V' ∧ e = .void ∨ ∃ t : TypeTree, t.WellNamed ∧ t.text = [c] ∧ t.valueType = e := by
  unfold ofLetter? at h
  split at h
  · cases h; exact .inr ⟨.byte, trivial, rfl, rfl⟩
  · cases h; exact .inr ⟨.char, trivial, rfl, rfl⟩
  · cases h; exact .inr ⟨.double, trivial, rfl, rfl⟩
  · cases h; exact .inr ⟨.float, trivial, rfl, rfl⟩
  · cases h; exact .inr ⟨.int, trivial, rfl, rfl⟩
  · cases h; exact .inr ⟨.long, trivial, rfl, rfl⟩
  · cases h; exact .inr ⟨.short, trivial, rfl, rfl⟩
  · cases h; exact .inr ⟨.boolean, trivial, rfl, rfl⟩
  · cases h; exact .inl ⟨rfl, rfl⟩
  · cases h

theorem takeElement_object {name : List Char} (h : ';' ∉ name) (rest : List Char) :
    takeElement ((TypeTree.object name).text ++ rest) = .ok (.reference, rest) := by
  have hafter : afterSemicolon? ('L' :: (name ++ ';' :: rest)) = some rest :=
    afterSemicolon?_eq_some.mpr ⟨'L' :: name, by simpa using h, rfl⟩
  simp [TypeTree.text, takeElement, hafter]

theorem takeElement_eq_ok {text rest : List Char} {e : ValueType}
    (h : takeElement text = .ok (e, rest)) :
    e = .void ∧ text = 'V' :: rest ∨
      ∃ t : TypeTree, t.WellNamed ∧ text = t.text ++ rest ∧ t.valueType = e := by
  unfold takeElement at h
  split at h
  · cases h
  next tail =>
      split at h
      · cases h
      next rest' hafter =>
          cases h
          rcases afterSemicolon?_eq_some.mp hafter with ⟨name, hname, htext⟩
          -- the name that ends at the semicolon starts with the letter itself
          cases name with
          | nil => simp at htext
          | cons c name =>
              rw [List.cons_append, List.cons.injEq] at htext
              rw [List.mem_cons, not_or] at hname
              refine .inr ⟨.object name, hname.2, ?_, rfl⟩
              simp [TypeTree.text, htext.2]
  next c tail _ =>
      split at h
      · cases h
      next hletter =>
          cases h
          rcases ofLetter?_eq_some hletter with ⟨rfl, rfl⟩ | ⟨t, hnamed, htext, rfl⟩
          · exact .inl ⟨rfl, rfl⟩
          · exact .inr ⟨t, hnamed, by rw [htext, List.singleton_append], rfl⟩

/-!
# Types
-/

namespace TypeTree

theorem valueType_ne_void (t : TypeTree) : t.valueType ≠ .void := by
  cases t <;> nofun

theorem slots_valueType (t : TypeTree) : t.valueType.slots = 1 + t.isWide.toNat := by
  cases t <;> rfl

/-- No type starts like the end of a list of arguments. -/
theorem text_append_ne (t : TypeTree) (rest tail : List Char) : t.text ++ rest ≠ ')' :: tail := by
  cases t <;> simp [text]

end TypeTree

theorem takeElement_dropWhile {t : TypeTree} (h : t.WellNamed) (rest : List Char) :
    ∃ e, e ≠ .void ∧ takeElement ((t.text ++ rest).dropWhile (· = '[')) = .ok (e, rest) := by
  induction t with
  | array component ih => exact ih h
  | object name => exact ⟨.reference, nofun, takeElement_object h rest⟩
  | byte => exact ⟨.byte, nofun, rfl⟩
  | char => exact ⟨.char, nofun, rfl⟩
  | double => exact ⟨.double, nofun, rfl⟩
  | float => exact ⟨.float, nofun, rfl⟩
  | int => exact ⟨.int, nofun, rfl⟩
  | long => exact ⟨.long, nofun, rfl⟩
  | short => exact ⟨.short, nofun, rfl⟩
  | boolean => exact ⟨.boolean, nofun, rfl⟩

theorem eq_text_of_takeElement {text rest : List Char} {e : ValueType} (he : e ≠ .void)
    (h : takeElement (text.dropWhile (· = '[')) = .ok (e, rest)) :
    ∃ t : TypeTree, t.WellNamed ∧ text = t.text ++ rest := by
  induction text with
  | nil => cases h
  | cons c text ih =>
      by_cases hc : c = '['
      · subst hc
        rcases ih h with ⟨t, hnamed, rfl⟩
        exact ⟨.array t, hnamed, rfl⟩
      · rw [List.dropWhile_cons_of_neg (by simpa using hc)] at h
        rcases takeElement_eq_ok h with ⟨hvoid, -⟩ | ⟨t, hnamed, htext, -⟩
        · exact absurd hvoid he
        · exact ⟨t, hnamed, htext⟩

theorem takeType_text {t : TypeTree} (h : t.WellNamed) (rest : List Char) :
    takeType (t.text ++ rest) = .ok (t.valueType, rest) := by
  cases t with
  | array component =>
      rcases takeElement_dropWhile h rest with ⟨e, he, htake⟩
      have hbrackets : takeElement (('[' :: (component.text ++ rest)).dropWhile (· = '[')) =
          .ok (e, rest) := htake
      rw [TypeTree.text, List.cons_append, takeType]
      simp only [hbrackets, if_neg he]
      rfl
  | object name => exact takeElement_object h rest
  | _ => rfl

/-- A type is read off a text exactly where the text of a type, or the letter of `void`, stands in
front of the rest. -/
theorem takeType_eq_ok {text rest : List Char} {e : ValueType} :
    takeType text = .ok (e, rest) ↔
      ∃ r : Option TypeTree, (∀ t ∈ r, t.WellNamed) ∧ text = MethodTree.resultText r ++ rest ∧
        (r.map TypeTree.valueType).getD .void = e := by
  constructor
  · intro h
    unfold takeType at h
    split at h
    next tail =>
        split at h
        · cases h
        next hbrackets =>
            split at h
            · cases h
            next he =>
                cases h
                have hbehind : takeElement (tail.dropWhile (· = '[')) = .ok (_, rest) := hbrackets
                rcases eq_text_of_takeElement he hbehind with ⟨t, hnamed, rfl⟩
                exact ⟨some (.array t), fun _ ht => Option.some.inj ht ▸ hnamed, rfl, rfl⟩
    next =>
        rcases takeElement_eq_ok h with ⟨rfl, rfl⟩ | ⟨t, hnamed, rfl, rfl⟩
        · exact ⟨none, nofun, rfl, rfl⟩
        · exact ⟨some t, fun _ ht => Option.some.inj ht ▸ hnamed, rfl, rfl⟩
  · intro h
    rcases h with ⟨r, hnamed, rfl, rfl⟩
    cases r with
    | none => rfl
    | some t => exact takeType_text (hnamed t rfl) rest

theorem fieldType_eq_ok {descriptor : String} {type : ValueType} :
    fieldType descriptor = .ok type ↔
      ∃ t : TypeTree, t.WellNamed ∧ t.text = descriptor.toList ∧ t.valueType = type := by
  unfold fieldType
  constructor
  · intro h
    split at h
    · cases h
    next e rest htake =>
        split at h
        · cases h
        next hwhole =>
            cases h
            rw [not_or, Decidable.not_not] at hwhole
            rcases takeType_eq_ok.mp htake with ⟨r, hnamed, htext, hvalue⟩
            cases r with
            | none => exact absurd hvalue.symm hwhole.2
            | some t =>
                refine ⟨t, hnamed t rfl, ?_, hvalue⟩
                rw [htext, hwhole.1, List.append_nil]
                rfl
  · intro h
    rcases h with ⟨t, hnamed, htext, rfl⟩
    have htake : takeType descriptor.toList = .ok (t.valueType, []) := by
      rw [← htext, ← takeType_text hnamed [], List.append_nil]
    rw [htake]
    simp [t.valueType_ne_void]

/-!
# Arguments
-/

theorem takeArguments_text {descriptor : String} {count : Nat} {trees : List TypeTree}
    (hnamed : ∀ t ∈ trees, t.WellNamed) (rest : List Char)
    (hcount : (trees.flatMap TypeTree.text ++ ')' :: rest).length ≤ count) :
    takeArguments descriptor count (trees.flatMap TypeTree.text ++ ')' :: rest) =
      .ok (trees.map TypeTree.valueType, rest) := by
  -- every argument takes a character of the text and one of the count
  induction trees generalizing count with
  | nil => simp [takeArguments]
  | cons t trees ih =>
      rw [List.forall_mem_cons] at hnamed
      rw [List.flatMap_cons, List.append_assoc] at hcount ⊢
      have hne := t.text_append_ne (trees.flatMap TypeTree.text ++ ')' :: rest)
      have hpos : 0 < t.text.length := by cases t <;> simp [TypeTree.text]
      rw [List.length_append] at hcount
      cases count with
      | zero => omega
      | succ count =>
          rw [takeArguments]
          · have hrest := @ih count hnamed.2 (by omega)
            simp only [takeType_text hnamed.1, if_neg t.valueType_ne_void, hrest]
            rfl
          · exact hne

theorem takeArguments_trees {descriptor : String} {count : Nat} {text rest : List Char}
    {arguments : List ValueType}
    (h : takeArguments descriptor count text = .ok (arguments, rest)) :
    ∃ trees : List TypeTree, (∀ t ∈ trees, t.WellNamed) ∧
      text = trees.flatMap TypeTree.text ++ ')' :: rest ∧
        trees.map TypeTree.valueType = arguments := by
  fun_induction takeArguments descriptor count text generalizing arguments rest with
  | case1 =>
      cases h
      exact ⟨[], List.forall_mem_nil _, rfl, rfl⟩
  | case2 => cases h
  | case3 => cases h
  | case4 => cases h
  | case5 => cases h
  | case6 count text _ e rest' htake he others tail hothers ih =>
      cases h
      rcases takeType_eq_ok.mp htake with ⟨r, hnamed, rfl, hvalue⟩
      rcases ih hothers with ⟨trees, htrees, rfl, rfl⟩
      cases r with
      | none => exact absurd hvalue.symm he
      | some t =>
          cases hvalue
          refine ⟨t :: trees, List.forall_mem_cons.mpr ⟨hnamed t rfl, htrees⟩, ?_, rfl⟩
          rw [List.flatMap_cons, List.append_assoc]
          rfl

/-- Arguments are read exactly where their texts stand in front of a closing parenthesis. -/
theorem takeArguments_eq_ok {descriptor : String} {count : Nat} {text rest : List Char}
    {arguments : List ValueType} (hcount : text.length ≤ count) :
    takeArguments descriptor count text = .ok (arguments, rest) ↔
      ∃ trees : List TypeTree, (∀ t ∈ trees, t.WellNamed) ∧
        text = trees.flatMap TypeTree.text ++ ')' :: rest ∧
          trees.map TypeTree.valueType = arguments := by
  constructor
  · exact takeArguments_trees
  · rintro ⟨trees, hnamed, rfl, rfl⟩
    exact takeArguments_text hnamed rest hcount

theorem signature_eq_ok {descriptor : String} {s : Signature} :
    signature descriptor = .ok s ↔
      ∃ m : MethodTree, m.WellNamed ∧ m.text = descriptor.toList ∧ m.signature = s := by
  unfold signature
  constructor
  · intro h
    split at h
    next text hlist =>
        split at h
        · cases h
        next arguments tail harguments =>
            split at h
            · cases h
            next returns rest hreturns =>
                rcases (takeArguments_eq_ok (Nat.le_refl _)).mp harguments with
                  ⟨trees, htrees, rfl, rfl⟩
                rcases takeType_eq_ok.mp hreturns with ⟨r, hnamed, rfl, rfl⟩
                split at h
                · cases h
                next hwhole =>
                    cases h
                    rw [Decidable.not_not] at hwhole
                    refine ⟨⟨trees, r⟩, ⟨htrees, hnamed⟩, ?_, rfl⟩
                    rw [hlist, hwhole, List.append_nil]
                    rfl
    next => cases h
  · intro h
    rcases h with ⟨m, hnamed, htext, rfl⟩
    have harguments : takeArguments descriptor
        (m.arguments.flatMap TypeTree.text ++ ')' :: MethodTree.resultText m.result).length
        (m.arguments.flatMap TypeTree.text ++ ')' :: MethodTree.resultText m.result) =
          .ok (m.arguments.map TypeTree.valueType, MethodTree.resultText m.result) :=
      (takeArguments_eq_ok (Nat.le_refl _)).mpr ⟨m.arguments, hnamed.1, rfl, rfl⟩
    have hreturns : takeType (MethodTree.resultText m.result) =
        .ok ((m.result.map TypeTree.valueType).getD .void, []) :=
      takeType_eq_ok.mpr ⟨m.result, hnamed.2, by rw [List.append_nil], rfl⟩
    rw [← htext, MethodTree.text]
    simp only [harguments, hreturns]
    rfl

theorem MethodTree.argumentSlots_signature (m : MethodTree) :
    m.signature.argumentSlots = m.arguments.length + m.arguments.countP TypeTree.isWide := by
  show (m.arguments.map TypeTree.valueType).foldr (fun t n => t.slots + n) 0 = _
  induction m.arguments with
  | nil => rfl
  | cons t trees ih =>
      rw [List.map_cons, List.foldr_cons, ih, t.slots_valueType, List.length_cons,
        List.countP_cons]
      cases t.isWide <;> simp <;> omega

/-- A text is read as a field descriptor exactly when it is the text of a type, and as a method
descriptor exactly when it is the text of one; what is read are the types that the text spells, and
the arguments take one slot each and one more for each that is wide. -/
theorem read_iff_text (descriptor : String) :
    (∀ type, fieldType descriptor = .ok type ↔
      ∃ t : TypeTree, t.WellNamed ∧ t.text = descriptor.toList ∧ t.valueType = type) ∧
    ∀ s, signature descriptor = .ok s ↔
      ∃ m : MethodTree, m.WellNamed ∧ m.text = descriptor.toList ∧ m.signature = s ∧
        s.argumentSlots = m.arguments.length + m.arguments.countP TypeTree.isWide := by
  constructor
  · intro type
    exact fieldType_eq_ok
  · intro s
    rw [signature_eq_ok]
    constructor
    · intro h
      rcases h with ⟨m, hnamed, htext, rfl⟩
      exact ⟨m, hnamed, htext, rfl, m.argumentSlots_signature⟩
    · intro h
      rcases h with ⟨m, hnamed, htext, hsignature, -⟩
      exact ⟨m, hnamed, htext, hsignature⟩

end Descriptor
end Bytecode
