import Bytecode.Proofs.History.Order

/-!
# The heap in the course of a history

At every event of a history the heap is typed, as long as the host itself puts nothing in it.  A
program that reads a field therefore gets as many slots as the descriptor of the field says.
-/

namespace Bytecode

open Machine Scene

variable {α : Type} {m m' : Machine} {frame : Frame} {a a' : Activation}

/-!
# Reading fields
-/

section

variable {σ : Type} {b : α} {s s' : σ}

theorem lift_eq_ok {x : Except Fault α} (h : (liftM x : EStateM Halt σ α) s = .ok b s') :
    x = .ok b ∧ s' = s := by
  cases x with
  | ok c =>
      cases h
      exact ⟨rfl, rfl⟩
  | error f => cases h

theorem liftMalformed_eq_ok {x : Except Malformed α}
    (h : (liftM x : EStateM Halt σ α) s = .ok b s') : x = .ok b ∧ s' = s := by
  cases x with
  | ok c =>
      cases h
      exact ⟨rfl, rfl⟩
  | error f => cases h

theorem onMachine_eq_ok {x : MachineM α} (h : (liftM x : Exec α) a = .ok b a') :
    ∃ m', x a.machine = .ok b m' ∧ a' = { a with machine := m' } := by
  change Activation.onWorkspace (Workspace.onMachine x) a = _ at h
  unfold Activation.onWorkspace Workspace.onMachine at h
  cases hx : x a.machine with
  | ok c m' =>
      simp only [hx] at h
      cases h
      exact ⟨m', rfl, rfl⟩
  | error e m' =>
      simp only [hx] at h
      cases h

theorem onStack_eq_ok {x : StackM α} (h : (liftM x : Exec α) a = .ok b a') :
    ∃ stack, x a.frame.stack = .ok b stack ∧ a' = { a with frame := { a.frame with stack } } := by
  change Activation.onStack x a = _ at h
  unfold Activation.onStack at h
  cases hx : x a.frame.stack with
  | ok c stack =>
      simp only [hx] at h
      cases h
      exact ⟨stack, rfl, rfl⟩
  | error e stack =>
      simp only [hx] at h
      cases h

end

theorem Machine.object_eq_ok {address : Nat} {o : Object} (h : object address m = .ok o m') :
    m.objects[address]? = some o ∧ m' = m := by
  unfold object at h
  rw [get_bind] at h
  cases hobject : m.objects[address]? with
  | none =>
      rw [hobject] at h
      cases h
  | some found =>
      rw [hobject] at h
      cases h
      exact ⟨rfl, rfl⟩

theorem instanceAt_eq_ok {address : Nat} {i : Instance} (h : instanceAt address m = .ok i m') :
    m.objects[address]? = some (.ofInstance i) ∧ m' = m := by
  unfold instanceAt at h
  obtain ⟨o, m₁, ho, hrest⟩ := bind_eq_ok h
  obtain ⟨hobject, rfl⟩ := object_eq_ok ho
  obtain ⟨hinstance, rfl⟩ := lift_eq_ok hrest
  cases o with
  | ofArray _ => cases hinstance
  | ofInstance _ =>
      cases hinstance
      exact ⟨hobject, rfl⟩

namespace OperandStack

theorem pushValue_apply (value : Value) (s : OperandStack) :
    pushValue value s = .ok () (s.append value) := by
  cases value <;> rfl

section

variable {s s' : OperandStack}

theorem pop_eq_ok {slot : Slot} (h : pop s = .ok slot s') : s = ⟨slot :: s'.slots⟩ := by
  rcases s with ⟨slots⟩
  cases slots with
  | nil => cases h
  | cons top rest =>
      cases h
      rfl

theorem popInt_eq_ok {value : Int32} (h : popInt s = .ok value s') :
    s = ⟨.int value :: s'.slots⟩ := by
  obtain ⟨slot, s₁, hpop, h⟩ := bind_eq_ok h
  cases slot with
  | int _ =>
      cases h
      exact pop_eq_ok hpop
  | reference _ => cases h

theorem popReference_eq_ok {target : Reference} (h : popReference s = .ok target s') :
    s = ⟨.reference target :: s'.slots⟩ := by
  obtain ⟨slot, s₁, hpop, h⟩ := bind_eq_ok h
  cases slot with
  | reference _ =>
      cases h
      exact pop_eq_ok hpop
  | int _ => cases h

theorem popObject_eq_ok {use : String} {address : Nat} (h : popObject use s = .ok address s') :
    s.slots = .reference (some address) :: s'.slots := by
  obtain ⟨target, s₁, htarget, h⟩ := bind_eq_ok h
  cases target with
  | none => cases h
  | some found =>
      cases h
      rw [popReference_eq_ok htarget]

end

end OperandStack

def Pushes (type : ValueType) (slots slots' : List Slot) : Prop :=
  ∃ top : List Slot, top.length = type.slots ∧ slots' = top ++ slots

theorem pushes_append {type : ValueType} {value : Value} (h : type.kind? = some value.kind)
    (s : OperandStack) : Pushes type s.slots (s.append value).slots := by
  refine ⟨value.slots.reverse, ?_, rfl⟩
  rw [List.length_reverse, ValueType.slots, h]
  cases value <;> rfl

theorem Exec.getStatic_eq_ok {load : Loader} {index : UInt16}
    (h : getStatic load index a = .ok () a') :
    ∃ f m' value, a.frame.pool.resolveStatic load index a.machine = .ok f m' ∧
      m'.static? f = some value ∧ a'.frame.stack = a.frame.stack.append value := by
  unfold getStatic at h
  obtain ⟨fr, a₀, hframe, h⟩ := bind_eq_ok h
  cases hframe
  obtain ⟨f, a₁, hf, h⟩ := bind_eq_ok h
  obtain ⟨m', hresolve, rfl⟩ := onMachine_eq_ok hf
  rw [get_bind] at h
  dsimp only at h
  cases hvalue : m'.static? f with
  | none =>
      simp only [hvalue] at h
      cases h
  | some value =>
      simp only [hvalue] at h
      obtain ⟨stack, hpush, rfl⟩ := onStack_eq_ok h
      rw [OperandStack.pushValue_apply] at hpush
      cases hpush
      exact ⟨f, m', value, hresolve, hvalue, rfl⟩

theorem Exec.getField_eq_ok {index : UInt16} (h : getField index a = .ok () a') :
    ∃ member address s i position, a.frame.pool.member index = .ok member ∧
      a.frame.stack.slots = .reference (some address) :: s.slots ∧
        a.machine.objects[address]? = some (.ofInstance i) ∧
          i.cls.fieldPosition member.owner member.name member.descriptor = .ok position ∧
            a'.frame.stack = OperandStack.append s (i.value position) := by
  unfold getField at h
  obtain ⟨fr, a₀, hframe, h₀⟩ := bind_eq_ok h
  cases hframe
  obtain ⟨member, a₁, hread, h₁⟩ := bind_eq_ok h₀
  obtain ⟨hmember, rfl⟩ := liftMalformed_eq_ok hread
  obtain ⟨address, a₂, hreceiver, h₂⟩ := bind_eq_ok h₁
  obtain ⟨s, hpop, rfl⟩ := onStack_eq_ok hreceiver
  obtain ⟨i, a₃, hinstance, h₃⟩ := bind_eq_ok h₂
  obtain ⟨m', hi, rfl⟩ := onMachine_eq_ok hinstance
  obtain ⟨hobject, rfl⟩ := instanceAt_eq_ok hi
  obtain ⟨position, a₄, hfind, h₄⟩ := bind_eq_ok h₃
  obtain ⟨hposition, rfl⟩ := lift_eq_ok hfind
  obtain ⟨s', hpush, rfl⟩ := onStack_eq_ok h₄
  rw [OperandStack.pushValue_apply] at hpush
  cases hpush
  exact ⟨member, address, s, i, position, hmember, OperandStack.popObject_eq_ok hpop, hobject,
    hposition, rfl⟩

/-!
# Histories
-/

/-- Whatever a program reads or makes on the machine has the size that its type says. -/
structure Machine.Sized (host : Host) (m : Machine) : Prop where
  getStatic : ∀ {fuel frame index a},
    Exec.getStatic (host.load fuel) index ⟨frame, m⟩ = .ok () a →
      ∃ member type, frame.pool.member index = .ok member ∧
        Descriptor.fieldType member.descriptor = .ok type ∧
          Pushes type frame.stack.slots a.frame.stack.slots
  getField : ∀ {frame index a}, Exec.getField index ⟨frame, m⟩ = .ok () a →
    ∃ member type receiver rest, frame.pool.member index = .ok member ∧
      Descriptor.fieldType member.descriptor = .ok type ∧
        frame.stack.slots = receiver :: rest ∧ Pushes type rest a.frame.stack.slots
  newArray : ∀ {fuel name length address m'},
    Machine.newArray (host.load fuel) name length m = .ok address m' →
      ∃ array, m'.objects[address]? = some (.ofArray array) ∧
        (array.store.size : Int) = length.toInt

section

variable {host : Host} {events : List Event}

theorem newArray_size {load : Loader} {name : String} {length : Int32} {address : Nat}
    (h : newArray load name length m = .ok address m') :
    ∃ array, m'.objects[address]? = some (.ofArray array) ∧
      (array.store.size : Int) = length.toInt := by
  unfold newArray at h
  obtain ⟨cls, m₁, -, hmade⟩ := bind_eq_ok h
  unfold newArrayOf at hmade
  by_cases hnegative : length < 0
  · rw [if_pos hnegative] at hmade
    cases hmade
  · rw [if_neg hnegative] at hmade
    cases hmade
    refine ⟨_, Array.getElem?_push_size, ?_⟩
    have hlength : 0 ≤ length.toInt := by
      rw [Int32.lt_iff_toInt_lt] at hnegative
      exact not_lt.mp hnegative
    show ((Array.replicate length.toInt.toNat _).size : Int) = _
    rw [Array.size_replicate, Int.toNat_of_nonneg hlength]

theorem sized (hnatives : host.natives.Polite) (hinv : (conduct host.path True none).inv m) :
    m.Sized host where
  getStatic := by
    intro fuel frame index a h
    obtain ⟨f, m', value, hresolve, hvalue, hstack⟩ := Exec.getStatic_eq_ok h
    have hends := ((Conduct.resolveStatic_talks (conduct host.path True none) frame.pool index m
      hinv trivial).outcome (Conduct.manner_chains _) (conduct_honors hnatives fuel)).1
    change (conduct host.path True none).Ends _ m
      (frame.pool.resolveStatic (host.load fuel) index m) at hends
    rw [hresolve] at hends
    obtain ⟨hinv', -, hfield⟩ := hends
    obtain ⟨-, member, hmember, hdescriptor⟩ := hfield trivial
    obtain ⟨type, htype, hkind⟩ := (hinv'.2.2.1 trivial).kind_static? hvalue
    refine ⟨member, type, hmember, hdescriptor ▸ htype, ?_⟩
    rw [hstack]
    exact pushes_append hkind _
  getField := by
    intro frame index a h
    obtain ⟨member, address, s, i, position, hmember, hslots, hobject, hposition, hstack⟩ :=
      Exec.getField_eq_ok h
    have htyped : i.Typed := Conduct.typed_of_getElem? (hinv.2.2.1 trivial) hobject
    obtain ⟨type, htype, hkind⟩ := htyped.kind_value hposition
    refine ⟨member, type, _, s.slots, hmember, htype, hslots, ?_⟩
    rw [hstack]
    exact pushes_append hkind _
  newArray := newArray_size

/-- The heap is typed at every event of a history in which the host puts nothing in it; field
accesses push as many slots as the descriptor says; and objects keep their class, and arrays their
length. -/
theorem History.heap_typed (hnatives : host.natives = Native.library)
    (h : History host (fun _ _ => False) events) :
    (∀ e ∈ events, e.machine.Sound ∧ e.machine.Sized host) ∧
      events.Pairwise fun a b => Grows a.machine b.machine := by
  have hpolite : host.natives.Polite := hnatives ▸ Native.library_polite
  have hchronicle : Chronicle host.path True Machine.empty events :=
    h.chronicle hpolite fun _ => False.elim
  constructor
  · intro e he
    have hinv := hchronicle.inv e he
    exact ⟨hinv.2.2.1 trivial, sized hpolite hinv⟩
  · exact hchronicle.ordered.imp fun h => h.1.2 trivial

end

namespace TypedHeap

/-!
A class with a static field of two slots, which its initializer sets, and an instance field of two
slots; then an object of the class and an array.
-/

/-- `lconst_1; putstatic total; return` -/
def code : List UInt8 := [0x0A, 0xB3, 0x00, 0x0B, 0xB1]

def file : List UInt8 :=
  ClassLayout.bytes
    { minor := 0, major := 52
      constants := [.utf8 "P", .classRef 1, .utf8 rootName, .classRef 3, .utf8 "Code",
        .utf8 "<clinit>", .utf8 "()V", .utf8 "total", .utf8 "J", .nameAndType 8 9, .fieldRef 2 10,
        .utf8 "value", .utf8 "D"]
      access := 0x21, thisClass := 2, superClass := 4, interfaces := []
      fields := [⟨0x0008, 8, 9, []⟩, ⟨0, 12, 13, []⟩]
      methods := [Sample.initializer code], attributes := [] }

def host : Host := Sample.host [("P", file)]

def withObject : Machine := endOf ((Request.newObject "P").run host 8) Machine.empty

def machine : Machine := endOf ((Request.newArray "[J" 3).run host 8) withObject

def ended {σ : Type} : EStateM.Result Halt σ α → Bool
  | .error .outOfFuel _ => false
  | _ => true

theorem finishes_of_ended {x : MachineM α} (h : ended (x m) = true) : Finishes x m (endOf x m) := by
  unfold endOf
  cases hx : x m with
  | ok b m' => exact .inl ⟨b, hx⟩
  | error e m' =>
      cases e with
      | fault f => exact .inr ⟨f, hx⟩
      | outOfFuel =>
          rw [hx] at h
          cases h

theorem machine_facts :
    (ended ((Request.newObject "P").run host 8 Machine.empty) = true ∧
        ended ((Request.newArray "[J" 3).run host 8 withObject) = true) ∧
      machine.objects.size = 2 ∧
        (machine.registration? "P").map Entry.statics = some [.long 1] := by
  decide +kernel

/-- The heap of that machine is typed. -/
theorem machine_typed :
    machine.objects.size = 2 ∧ (machine.registration? "P").map Entry.statics = some [.long 1] ∧
      machine.Sound ∧ machine.Sized host := by
  obtain ⟨⟨hobject, harray⟩, hsize, hstatics⟩ := machine_facts
  have hrests : Rests host (fun _ _ => False)
      ([.rested Machine.empty] ++ [] ++ [.rested withObject] ++ [] ++ [.rested machine]) machine :=
    .request (.request .empty (.start 8 _ _) (finishes_of_ended hobject)) (.start 8 _ _)
      (finishes_of_ended harray)
  have hhistory : History host (fun _ _ => False)
      [.rested Machine.empty, .rested withObject, .rested machine] :=
    ⟨8, .bootstrap, machine, .going ∅, _, [], hrests, .start 8 _ _, rfl⟩
  have hlast : Event.rested machine ∈
      [.rested Machine.empty, .rested withObject, .rested machine] := by
    simp only [List.mem_cons, true_or, or_true]
  obtain ⟨hsound, hsized⟩ := (hhistory.heap_typed rfl).1 _ hlast
  simp only [Event.machine] at hsound hsized
  exact ⟨hsize, hstatics, hsound, hsized⟩

end TypedHeap

end Bytecode
