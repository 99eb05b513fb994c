import Bytecode.Proofs.Contract.Terms

/-!
# Where faults come from

Only the loader reports that a class is its own ancestor, or that the root is missing, and only few
requests could find the machine inconsistent.  Reading class files and descriptors, looking
constants up, searching members, storing elements and working on operand stacks fail for other
reasons.
-/

namespace Bytecode

/-- The cause is not that a class is its own ancestor. -/
def Malformed.Plain (cause : Malformed) : Prop :=
  ∀ name, cause ≠ .circularity name

def Fault.Plain (f : Fault) : Prop :=
  ∀ name, f ≠ .malformed (.circularity name)

theorem Malformed.Plain.fault {cause : Malformed} (h : cause.Plain) :
    (Fault.malformed cause).Plain := by
  intro name heq
  cases heq
  exact h name rfl

theorem Fault.plain_unresolved (cause : Unresolved) : (Fault.unresolved cause).Plain := by
  intro name heq
  cases heq

theorem Fault.plain_illegal (cause : Illegal) : (Fault.illegal cause).Plain := by
  intro name heq
  cases heq

/-- The machine would find itself inconsistent. -/
inductive Fault.Internal : Fault → Prop where
  | noFrame : Internal (.illegal .noFrame)
  | emptyReturn : Internal (.illegal .emptyReturn)
  | discarded (owner member : String) : Internal (.illegal (.discarded owner member))
  | noPool (name : String) : Internal (.illegal (.noPool name))
  | vanished (name : String) : Internal (.illegal (.vanished name))
  | noSuperclass (name : String) : Internal (.illegal (.noSuperclass name))

/-- Faults that arise in few places only. -/
inductive Fault.Reserved : Fault → Prop where
  | circularity (name : String) : Reserved (.malformed (.circularity name))
  | rootNotLoaded (name : String) : Reserved (.illegal (.rootNotLoaded name))
  | internal {f : Fault} (h : f.Internal) : Reserved f

def Fault.Ordinary (f : Fault) : Prop :=
  ¬ f.Reserved

theorem Fault.Ordinary.plain {f : Fault} (h : f.Ordinary) : f.Plain := by
  rintro name rfl
  exact h (.circularity name)

theorem Malformed.Plain.ordinary {cause : Malformed} (h : cause.Plain) :
    (Fault.malformed cause).Ordinary := by
  intro hreserved
  cases hreserved with
  | circularity name => exact h name rfl
  | internal hinternal => cases hinternal

variable {ε α β : Type}

/-- A computation that fails does so with an error of the given sort. -/
def FailsWith (E : ε → Prop) (x : Except ε α) : Prop :=
  ∀ e, x = .error e → E e

namespace FailsWith

variable {E : ε → Prop}

theorem ok (a : α) : FailsWith E (.ok a) := nofun

theorem pure (a : α) : FailsWith E (pure a : Except ε α) := nofun

theorem error {e : ε} (h : E e) : FailsWith (α := α) E (.error e) := by
  intro e' heq
  cases heq
  exact h

theorem bind {x : Except ε α} {f : α → Except ε β} (hx : FailsWith E x)
    (hf : ∀ a, FailsWith E (f a)) : FailsWith E (x >>= f) := by
  cases x with
  | ok a => exact hf a
  | error e => exact error (hx e rfl)

theorem map {x : Except ε α} (hx : FailsWith E x) (f : α → β) : FailsWith E (f <$> x) := by
  cases x with
  | ok a => exact ok (f a)
  | error e => exact error (hx e rfl)

theorem ite {c : Prop} [Decidable c] {x y : Except ε α} (hx : FailsWith E x)
    (hy : FailsWith E y) : FailsWith E (if c then x else y) := by
  split
  · exact hx
  · exact hy

theorem mapM {f : α → Except ε β} (hf : ∀ a, FailsWith E (f a)) (items : List α) :
    FailsWith E (items.mapM f) := by
  induction items with
  | nil => exact pure []
  | cons a items ih =>
      rw [List.mapM_cons]
      exact bind (hf a) fun b => bind ih fun bs => pure _

end FailsWith

/-!
# Constant tables
-/

namespace Pool

theorem get_fails (p : Pool) (index : UInt16) : FailsWith Malformed.Plain (p.get index) := by
  unfold get
  split
  · exact .error nofun
  · exact .error nofun
  · exact .ok _

theorem utf8_fails (p : Pool) (index : UInt16) : FailsWith Malformed.Plain (p.utf8 index) := by
  refine (p.get_fails index).bind fun c => ?_
  split
  · exact .ok _
  · exact .error nofun

theorem className_fails (p : Pool) (index : UInt16) :
    FailsWith Malformed.Plain (p.className index) := by
  refine (p.get_fails index).bind fun c => ?_
  split
  · exact p.utf8_fails _
  · exact .error nofun

theorem nameAndType_fails (p : Pool) (index : UInt16) :
    FailsWith Malformed.Plain (p.nameAndType index) := by
  refine (p.get_fails index).bind fun c => ?_
  split
  · exact (p.utf8_fails _).bind fun name => (p.utf8_fails _).bind fun d => .pure _
  · exact .error nofun

theorem member_fails (p : Pool) (owner : String) (index : UInt16) :
    FailsWith Malformed.Plain (p.member owner index) := by
  refine (p.get_fails index).bind fun c => ?_
  have hparts (classIndex memberIndex : UInt16) (ofInterface : Bool) :
      FailsWith Malformed.Plain do
        let named ← p.nameAndType memberIndex
        return (⟨← p.className classIndex, named.1, named.2, ofInterface⟩ : MemberRef) :=
    (p.nameAndType_fails _).bind fun _ => (p.className_fails _).bind fun _ => .pure _
  split
  · exact hparts _ _ _
  · exact hparts _ _ _
  · exact hparts _ _ _
  · exact .error nofun

end Pool

/-!
# Descriptors
-/

theorem Element.ofComponent_fails (component : String) :
    FailsWith Malformed.Plain (ofComponent component) := by
  unfold ofComponent
  split <;> first | exact .ok _ | exact .error nofun

namespace Descriptor

theorem takeElement_fails (text : List Char) : FailsWith Malformed.Plain (takeElement text) := by
  unfold takeElement
  split
  · exact .error nofun
  · split
    · exact .error nofun
    · exact .ok _
  · split
    · exact .error nofun
    · exact .ok _

theorem takeType_fails (text : List Char) : FailsWith Malformed.Plain (takeType text) := by
  unfold takeType
  split
  next rest =>
      have helement := takeElement_fails (('[' :: rest).dropWhile (· = '['))
      split
      next e he => exact .error (helement e he)
      next => exact .ite (.error nofun) (.ok _)
  next => exact takeElement_fails text

theorem fieldType_fails (descriptor : String) :
    FailsWith Malformed.Plain (fieldType descriptor) := by
  unfold fieldType
  split
  next e he => exact .error (takeType_fails _ e he)
  next => exact .ite (.error nofun) (.ok _)

theorem takeArguments_fails (descriptor : String) (count : Nat) (text : List Char) :
    FailsWith Malformed.Plain (takeArguments descriptor count text) := by
  fun_induction takeArguments descriptor count text with
  | case1 => exact .ok _
  | case2 => exact .error nofun
  | case3 _ _ _ e he => exact .error (takeType_fails _ e he)
  | case4 => exact .error nofun
  | case5 _ _ _ _ _ _ _ e he ih => exact .error (ih e he)
  | case6 => exact .ok _

theorem signature_fails (descriptor : String) :
    FailsWith Malformed.Plain (signature descriptor) := by
  unfold signature
  split
  next text _ =>
      split
      next e he => exact .error (takeArguments_fails descriptor text.length text e he)
      next tail _ =>
          split
          next e he => exact .error (takeType_fails tail e he)
          next => exact .ite (.error nofun) (.ok _)
  next => exact .error nofun

theorem elementOf_fails (name : String) : FailsWith Malformed.Plain (elementOf name) := by
  unfold elementOf
  split
  next component _ =>
      refine (Element.ofComponent_fails component).bind fun element =>
        .ite ?_ (.ite (.error nofun) (.pure _))
      exact (fieldType_fails component).bind fun _ => .pure _
  next => exact .error nofun

end Descriptor

theorem ArrayClass.ofName_fails (name : String) (root : Class) :
    FailsWith Malformed.Plain (ArrayClass.ofName name root) :=
  (Descriptor.elementOf_fails name).bind fun _ => .pure _

theorem Method.ofMember_fails (owner : String) (m : Member) :
    FailsWith Malformed.Plain (Method.ofMember owner m) := by
  unfold Method.ofMember
  split
  next e he =>
      exact .error (Descriptor.signature_fails m.descriptor e he)
  next =>
      split
      · exact .pure _
      · exact .ite (.pure _) (.error nofun)

theorem Declarations.ofFile_fails (file : ClassFile) :
    FailsWith Malformed.Plain (Declarations.ofFile file) := by
  refine (FailsWith.mapM (fun m => ?_) file.fields).bind fun fields =>
    (FailsWith.mapM (Method.ofMember_fails file.name) file.methods).bind fun methods => .pure _
  exact (Descriptor.fieldType_fails m.descriptor).bind fun t => .pure _

/-!
# Class files
-/

namespace Reader

def Fails (r : Reader α) : Prop :=
  ∀ c, FailsWith Malformed.Plain (r c)

namespace Fails

theorem pure (a : α) : Fails (pure a) := fun _ => .ok _

theorem bind {r : Reader α} {f : α → Reader β} (hr : r.Fails) (hf : ∀ a, (f a).Fails) :
    (r >>= f).Fails := fun c => (hr c).bind fun p => hf p.1 p.2

theorem throw {cause : Malformed} (h : cause.Plain) : Fails (throw cause : Reader α) :=
  fun _ => .error h

theorem lift {x : Except Malformed α} (h : FailsWith Malformed.Plain x) :
    Fails (liftM x : Reader α) := fun _ => h.bind fun _ => .pure _

theorem ite {c : Prop} [Decidable c] {r q : Reader α} (hr : r.Fails) (hq : q.Fails) :
    (if c then r else q).Fails := by
  split
  · exact hr
  · exact hq

end Fails

theorem u8_fails : u8.Fails := by
  intro c
  unfold u8
  show FailsWith _ (StateT.bind _ _ c)
  rcases c with ⟨offset, rest⟩
  cases rest with
  | nil => exact .error nofun
  | cons b rest => exact .ok _

theorem u16_fails : u16.Fails :=
  u8_fails.bind fun _ => u8_fails.bind fun _ => .pure _

theorem u32_fails : u32.Fails :=
  u16_fails.bind fun _ => u16_fails.bind fun _ => .pure _

theorem u64_fails : u64.Fails :=
  u32_fails.bind fun _ => u32_fails.bind fun _ => .pure _

theorem block_fails (count : Nat) : (block count).Fails := by
  intro c
  show FailsWith _ ((if count ≤ c.rest.length then _ else _ : Reader (List UInt8)) c)
  split
  · exact .ok _
  · exact .error nofun

theorem times_fails {item : Reader α} (h : item.Fails) (count : Nat) :
    (times item count).Fails := by
  induction count with
  | zero => exact .pure []
  | succ count ih => exact h.bind fun _ => ih.bind fun _ => .pure _

theorem within_fails {r : Reader α} (h : r.Fails) (data : List UInt8) : (within data r).Fails :=
  (Fails.lift (h ⟨0, data⟩)).bind fun _ => .pure _

theorem decodeText_fails (bytes : List UInt8) : (decodeText bytes).Fails := by
  unfold decodeText
  split
  · exact .pure _
  · exact .throw nofun

theorem constantOfTag_fails (index : Nat) (tag : UInt8) : (constantOfTag index tag).Fails := by
  have hpair (f : UInt16 → UInt16 → Constant) :
      Fails do return f (← u16) (← u16) :=
    u16_fails.bind fun _ => u16_fails.bind fun _ => .pure _
  unfold constantOfTag
  split
  · exact u16_fails.bind fun length =>
      (block_fails _).bind fun bytes => (decodeText_fails bytes).bind fun _ => .pure _
  · exact u32_fails.bind fun _ => .pure _
  · exact u32_fails.bind fun _ => .pure _
  · exact u64_fails.bind fun _ => .pure _
  · exact u64_fails.bind fun _ => .pure _
  · exact u16_fails.bind fun _ => .pure _
  · exact u16_fails.bind fun _ => .pure _
  · exact hpair _
  · exact hpair _
  · exact hpair _
  · exact hpair _
  · exact u8_fails.bind fun _ => u16_fails.bind fun _ => .pure _
  · exact u16_fails.bind fun _ => .pure _
  · exact hpair _
  · exact hpair _
  · exact u16_fails.bind fun _ => .pure _
  · exact u16_fails.bind fun _ => .pure _
  · exact .throw nofun

theorem constants_fails :
    (entries : Array Constant) → (remaining : Nat) → (constants entries remaining).Fails
  | entries, 0 => .pure entries
  | _, 1 =>
      u8_fails.bind fun tag => (constantOfTag_fails _ tag).bind fun _ =>
        .ite (Fails.bind (.throw nofun) fun _ => .pure _) (.pure _)
  | _, remaining + 2 =>
      u8_fails.bind fun tag => (constantOfTag_fails _ tag).bind fun _ =>
        .ite (constants_fails _ remaining) (constants_fails _ (remaining + 1))

theorem pool_fails : pool.Fails :=
  u16_fails.bind fun _ =>
    have hrest (count : UInt16) := (constants_fails #[.unusable] (count.toNat - 1)).bind
      fun entries => Fails.pure (Pool.mk entries)
    .ite (Fails.bind (.throw nofun) fun _ => hrest _) (hrest _)

theorem attributes_fails (p : Pool) (depth : Nat) : (attributes p depth).Fails := by
  induction depth with
  | zero => exact .throw nofun
  | succ depth ih =>
      refine u16_fails.bind fun count => times_fails ?_ count.toNat
      refine u16_fails.bind fun index => (Fails.lift (p.utf8_fails index)).bind fun name =>
        u32_fails.bind fun length => (block_fails _).bind fun data =>
          .ite ?_ (.ite (within_fails ?_ data) (.pure _))
      · exact (within_fails u16_fails data).bind fun _ => .pure _
      · have hhandler : handler.Fails :=
          u16_fails.bind fun _ => u16_fails.bind fun _ => u16_fails.bind fun _ =>
            u16_fails.bind fun _ => .pure _
        exact u16_fails.bind fun _ => u16_fails.bind fun _ => u32_fails.bind fun _ =>
          (block_fails _).bind fun _ => u16_fails.bind fun _ =>
            (times_fails hhandler _).bind fun _ => ih.bind fun _ => .pure _

theorem members_fails (p : Pool) (depth : Nat) : (members p depth).Fails :=
  u16_fails.bind fun _ => times_fails
    (u16_fails.bind fun _ => u16_fails.bind fun _ => (Fails.lift (p.utf8_fails _)).bind fun _ =>
      u16_fails.bind fun _ => (Fails.lift (p.utf8_fails _)).bind fun _ =>
        (attributes_fails p depth).bind fun _ => .pure _) _

theorem classFile_fails (depth : Nat) : (classFile depth).Fails := by
  have hsuper (p : Pool) (index : UInt16) :
      FailsWith Malformed.Plain (optionalClassName p index) := by
    unfold optionalClassName
    exact .ite (.ok none) ((p.className_fails index).map some)
  refine u32_fails.bind fun magic => ?_
  dsimp only
  refine .ite (Fails.bind (.throw nofun) fun _ => ?_) ?_
  all_goals
    refine u16_fails.bind fun minor => u16_fails.bind fun major => ?_
    refine .ite (Fails.bind (.throw nofun) fun _ => ?_) ?_
    all_goals
      exact pool_fails.bind fun p => u16_fails.bind fun _ => u16_fails.bind fun _ =>
        (Fails.lift (p.className_fails _)).bind fun _ => u16_fails.bind fun _ =>
          (Fails.lift (hsuper p _)).bind fun _ => u16_fails.bind fun _ =>
            (times_fails (u16_fails.bind fun _ => Fails.lift (p.className_fails _)) _).bind
              fun _ => (members_fails p depth).bind fun _ => (members_fails p depth).bind
                fun _ => (attributes_fails p depth).bind fun _ => .pure _

end Reader

theorem ClassFile.read_fails (bytes : List UInt8) :
    FailsWith Malformed.Plain (ClassFile.read bytes) :=
  (Reader.classFile_fails _ ⟨0, bytes⟩).map Prod.fst

end Bytecode
