import Bytecode.Machine.Session

/-!
# Requests step by step

A request that is followed by another one either ends the whole or hands its answer and its state
on.  The lemmas here take such a sequence apart, whatever the state is: a machine, a frame with its
machine, or a thread.
-/

namespace Bytecode

variable {ε σ α β : Type}

theorem bind_of_ok {x : EStateM ε σ α} {f : α → EStateM ε σ β} {s s' : σ} {a : α}
    (h : x s = .ok a s') : (x >>= f) s = f a s' := by
  show EStateM.bind x f s = f a s'
  simp only [EStateM.bind, h]

theorem bind_of_error {x : EStateM ε σ α} {f : α → EStateM ε σ β} {s s' : σ} {e : ε}
    (h : x s = .error e s') : (x >>= f) s = .error e s' := by
  show EStateM.bind x f s = .error e s'
  simp only [EStateM.bind, h]

theorem bind_eq_ok {x : EStateM ε σ α} {f : α → EStateM ε σ β} {s s' : σ} {b : β}
    (h : (x >>= f) s = .ok b s') : ∃ a s₁, x s = .ok a s₁ ∧ f a s₁ = .ok b s' := by
  cases hx : x s with
  | ok a s₁ =>
      rw [bind_of_ok hx] at h
      exact ⟨a, s₁, rfl, h⟩
  | error e s₁ =>
      rw [bind_of_error hx] at h
      cases h

theorem bind_congr_at {x y : EStateM ε σ α} {s : σ} (f : α → EStateM ε σ β) (h : x s = y s) :
    (x >>= f) s = (y >>= f) s := by
  cases hy : y s with
  | ok a s' => rw [bind_of_ok hy, bind_of_ok (h.trans hy)]
  | error e s' => rw [bind_of_error hy, bind_of_error (h.trans hy)]

theorem get_bind (f : σ → EStateM ε σ β) (s : σ) : (get >>= f) s = f s s := rfl

theorem modify_bind (g : σ → σ) (f : PUnit → EStateM ε σ β) (s : σ) :
    ((modify g : EStateM ε σ PUnit) >>= f) s = f ⟨⟩ (g s) := rfl

theorem modifyGet_bind (g : σ → α × σ) (f : α → EStateM ε σ β) (s : σ) :
    ((modifyGet g : EStateM ε σ α) >>= f) s = f (g s).1 (g s).2 := rfl

theorem Machine.object_found {address : Nat} {o : Object} {m : Machine}
    (h : m.objects[address]? = some o) : object address m = .ok o m := by
  unfold object
  rw [get_bind, h]
  rfl

theorem Exec.jump_eq (offset : Int32) (a : Activation) :
    Exec.jump offset a =
      match a.frame.jump offset with
      | .ok f => .ok () { a with frame := f }
      | .error f => .error (.fault f) a := by
  unfold Exec.jump
  rw [get_bind]
  cases a.frame.jump offset <;> rfl

/-!
# The class of an array type
-/

namespace Machine

variable {m : Machine} {name : String}

theorem arrayClass_known {entry : ArrayEntry} (harray : m.array? name = some entry) :
    arrayClass name m = .ok entry.cls m := by
  unfold arrayClass
  rw [get_bind, harray]
  rfl

theorem arrayClass_made {root : Class} {e : Element} (harray : m.array? name = none)
    (hroot : m.class? rootName = some root) (helement : Descriptor.elementOf name = .ok e) :
    arrayClass name m =
      .ok ⟨name, e, root⟩ { m with arrays := m.arrays ++ [⟨⟨name, e, root⟩, none⟩] } := by
  unfold arrayClass ArrayClass.ofName
  rw [get_bind, harray]
  dsimp only
  rw [get_bind, hroot, helement]
  rfl

/-- The class is known, or it is made; it cannot be made without the root, or if the name is not
that of an array type. -/
theorem arrayClass_outcome (name : String) (m : Machine) :
    (∃ entry, m.array? name = some entry ∧ arrayClass name m = .ok entry.cls m) ∨
      (m.class? rootName = none ∧
        arrayClass name m = .error (.fault (.illegal (.rootNotLoaded name))) m) ∨
      (∃ f, Descriptor.elementOf name = .error f ∧
        arrayClass name m = .error (.fault (.malformed f)) m) ∨
      ∃ root e, m.array? name = none ∧ m.class? rootName = some root ∧
        Descriptor.elementOf name = .ok e ∧ arrayClass name m =
          .ok ⟨name, e, root⟩ { m with arrays := m.arrays ++ [⟨⟨name, e, root⟩, none⟩] } := by
  cases harray : m.array? name with
  | some entry => exact .inl ⟨entry, rfl, arrayClass_known harray⟩
  | none =>
      cases hroot : m.class? rootName with
      | none =>
          refine .inr (.inl ⟨rfl, ?_⟩)
          unfold arrayClass
          rw [get_bind, harray]
          dsimp only
          rw [get_bind, hroot]
          rfl
      | some root =>
          cases helement : Descriptor.elementOf name with
          | error f =>
              refine .inr (.inr (.inl ⟨f, rfl, ?_⟩))
              unfold arrayClass ArrayClass.ofName
              rw [get_bind, harray]
              dsimp only
              rw [get_bind, hroot, helement]
              rfl
          | ok e =>
              exact .inr (.inr (.inr
                ⟨root, e, rfl, rfl, rfl, arrayClass_made harray hroot helement⟩))

end Machine

end Bytecode
