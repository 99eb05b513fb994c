import Bytecode.Proofs.Contract.Operands
import Bytecode.Proofs.Heap.Grounded

/-!
# Contracts and charters

Apart from loading, requests change little of what the loader relies on: classes, their states,
constant tables and the names being loaded stay as they are, and followed class references are only
added.  A contract is a set of terms that allows this much.

A charter can say more about what requests find and leave behind: objects keep their shape, and if
the charter is grounded, whatever comes up belongs to registered classes.  Every contract is a
charter that is not grounded.  Every request that is given a loader keeps every charter that its
loader keeps, and two loaders that no state of the charter tells apart give the same outcome.
-/

namespace Bytecode

variable {α : Type}

namespace Machine

def standings (m : Machine) : List (Class × ClassState) :=
  m.classes.map fun e => (e.cls, e.state)

/-- The second machine differs from the first only in what the loader never looks at. -/
structure Works (m m' : Machine) : Prop where
  standings : m'.standings = m.standings
  pools : m'.pools = m.pools
  resolved : m'.resolved = m.resolved
  loading : m'.loading = m.loading

theorem Works.trans {a b c : Machine} (h : Works a b) (h' : Works b c) : Works a c :=
  ⟨h'.standings.trans h.standings, h'.pools.trans h.pools, h'.resolved.trans h.resolved,
    h'.loading.trans h.loading⟩

theorem modifyEntry_works (m : Machine) (name : String) {f : Entry → Entry}
    (hf : ∀ e, (f e).cls = e.cls ∧ (f e).state = e.state) : Works m (m.modifyEntry name f) := by
  refine ⟨?_, rfl, rfl, rfl⟩
  simp only [standings, modifyEntry, List.map_map]
  refine List.map_congr_left fun e _ => ?_
  simp only [Function.comp_apply]
  split
  · rw [(hf e).1, (hf e).2]
  · rfl

theorem setStatic_works (m : Machine) (f : Field) (value : Value) :
    Works m (m.setStatic f value) := by
  unfold setStatic
  split
  · exact modifyEntry_works m _ fun e => ⟨rfl, rfl⟩
  · exact ⟨rfl, rfl, rfl, rfl⟩

end Machine

open Machine

structure Contract extends Terms Machine where
  /-- What is known of an answer of the loader. -/
  loaded : String → Loaded → Machine → Prop
  /-- Ordinary work keeps the terms. -/
  work : ∀ {m m'}, inv m → Works m m' → inv m' ∧ rel m m'
  /-- A class that the loader gave for a class reference may be remembered. -/
  remember : ∀ {m : Machine} {p : ClassPool} {index name c},
    inv m → m.pool? p.owner = some p.pool → p.className index = .ok name →
      loaded name (.ofClass c) m → m.resolved.lookup (p.owner, index) = none →
        inv { m with resolved := ((p.owner, index), c) :: m.resolved } ∧
          rel m { m with resolved := ((p.owner, index), c) :: m.resolved }
  /-- Constant tables stay. -/
  pools : ∀ {m m' : Machine} {name pool},
    rel m m' → m.pool? name = some pool → m'.pool? name = some pool
  plain : ∀ {f : Fault}, f.Plain → err f

/-- No state of the contract tells the loaders apart, and they keep the contract. -/
def Contract.Loaders (C : Contract) (load₁ load₂ : Loader) : Prop :=
  ∀ name, C.Alike (fun _ => True) (C.loaded name) (load₁ name) (load₂ name)

/-- The constant table of a class is the one that the machine has for it. -/
def Contract.Known (p : ClassPool) (m : Machine) : Prop :=
  m.pool? p.owner = some p.pool

/-!
# Charters
-/

/-- The class that a loaded type stands for, or the root if it is an array type. -/
def Loaded.base : Loaded → Class
  | ofClass c => c
  | ofArray a => a.parent

structure Charter extends Terms Machine where
  /-- Whatever comes up belongs to registered classes. -/
  grounded : Prop
  /-- What is known of an answer of the loader. -/
  loaded : String → Loaded → Machine → Prop
  closed : ∀ {m}, inv m → grounded → m.Closed
  ground : ∀ {m}, inv m → grounded → m.Grounded
  supplied : ∀ {name l m}, loaded name l m → grounded → m.HasClass l.base
  /-- Registered classes stay. -/
  stays : ∀ {m m' c}, rel m m' → grounded → m.HasClass c → m'.HasClass c
  /-- Ordinary work keeps the terms. -/
  work : ∀ {m m'}, inv m → Works m m' → Grows m m' → (grounded → m'.Grounded) →
    inv m' ∧ rel m m'
  /-- A class that the loader gave for a class reference may be remembered. -/
  remember : ∀ {m : Machine} {p : ClassPool} {index name c},
    inv m → m.pool? p.owner = some p.pool → p.className index = .ok name →
      loaded name (.ofClass c) m → m.resolved.lookup (p.owner, index) = none →
        inv { m with resolved := ((p.owner, index), c) :: m.resolved } ∧
          rel m { m with resolved := ((p.owner, index), c) :: m.resolved }
  /-- Constant tables stay. -/
  pools : ∀ {m m' : Machine} {name pool},
    rel m m' → m.pool? name = some pool → m'.pool? name = some pool
  ordinary : ∀ {f : Fault}, f.Ordinary → err f
  plain : ∀ {f : Fault}, ¬ grounded → f.Plain → err f

/-- A contract says nothing about what comes up. -/
abbrev Contract.charter (C : Contract) : Charter where
  toTerms := C.toTerms
  grounded := False
  loaded := C.loaded
  closed _ := False.elim
  ground _ := False.elim
  supplied _ := False.elim
  stays _ := False.elim
  work hinv hwork _ _ := C.work hinv hwork
  remember := C.remember
  pools := C.pools
  ordinary h := C.plain h.plain
  plain _ := C.plain

namespace Charter

variable {C : Charter} {m m' : Machine}

def Loaders (C : Charter) (load₁ load₂ : Loader) : Prop :=
  ∀ name, C.Alike (fun _ => True) (C.loaded name) (load₁ name) (load₂ name)

/-- The class is registered, as far as the charter cares. -/
def Has (C : Charter) (c : Class) (m : Machine) : Prop :=
  C.grounded → m.HasClass c

def Calls (C : Charter) (method : Method) (m : Machine) : Prop :=
  C.grounded → m.HasMethod method

theorem Has.keep {c : Class} (hrel : C.rel m m') (h : C.Has c m) : C.Has c m' := fun hg =>
  C.stays hrel hg (h hg)

theorem Calls.keep {method : Method} (hrel : C.rel m m') (h : C.Calls method m) :
    C.Calls method m' := by
  intro hg
  obtain ⟨c, hc, hmem⟩ := h hg
  exact ⟨c, C.stays hrel hg hc, hmem⟩

theorem modify_same {g : Machine → Machine} (hworks : ∀ m, Works m (g m))
    (hobjects : ∀ m, (g m).objects = m.objects) (hground : ∀ m, m.Grounded → (g m).Grounded) :
    C.Same (modify g) (modify g) :=
  .modify fun m hinv =>
    C.work hinv (hworks m) (Grows.of_eq (hobjects m)) fun hg => hground m (C.ground hinv hg)

theorem lift_same {x : Except Fault α} (h : FailsWith Fault.Ordinary x) :
    C.Same (liftM x) (liftM x) :=
  .lift fun f hf => C.ordinary (h f hf)

theorem liftMalformed_same {x : Except Malformed α} (h : FailsWith Malformed.Plain x) :
    C.Same (liftM x) (liftM x) :=
  .liftMalformed fun f hf => C.ordinary (h f hf).ordinary

end Charter
end Bytecode
