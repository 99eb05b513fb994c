import Bytecode.Proofs.Loading.Reachable

/-!
# Followed class references

A class reference that was followed once gives the same class ever after.  The loader gives this
class too, until the class fails: then the loader refuses it, and the reference still gives it.
-/

namespace Bytecode

open Machine

namespace Pool

variable {p : Pool} {index : UInt16}

theorem lt_size_of_get {constant : Constant} (h : p.get index = .ok constant) :
    index.toNat < p.size := by
  unfold get at h
  cases hentry : p.entries[index.toNat]? with
  | none =>
      rw [hentry] at h
      cases h
  | some found =>
      rcases Array.getElem?_eq_some_iff.mp hentry with ⟨hlt, -⟩
      exact hlt

theorem lt_size_of_className {name : String} (h : p.className index = .ok name) :
    index.toNat < p.size := by
  cases hget : p.get index with
  | error cause =>
      unfold className at h
      rw [hget] at h
      cases h
  | ok constant => exact lt_size_of_get hget

end Pool

/-!
# Following a reference
-/

def answerOf {σ α : Type} : EStateM.Result Halt σ α → Except Halt α
  | .ok a _ => .ok a
  | .error e _ => .error e

section

variable {load : Loader} {p : ClassPool} {index : UInt16} {name : String} {m m' : Machine}
  {c : Class} (hname : p.className index = .ok name)

include hname

theorem resolveClass_followed (hlookup : m.resolved.lookup (p.owner, index) = some c) :
    p.resolveClass load index m = .ok c m := by
  have hsize : ¬ p.pool.size ≤ index.toNat := Nat.not_le.mpr (Pool.lt_size_of_className hname)
  unfold ClassPool.resolveClass
  simp only [if_neg hsize, get_bind, hlookup]
  rfl

theorem resolveClass_eq_load (hlookup : m.resolved.lookup (p.owner, index) = none) :
    p.resolveClass load index m =
      (do let c ← load.loadClass name
          match (← get).resolved.lookup (p.owner, index) with
          | some first => return first
          | none =>
              modify fun m => { m with resolved := ((p.owner, index), c) :: m.resolved }
              return c : MachineM Class) m := by
  have hsize : ¬ p.pool.size ≤ index.toNat := Nat.not_le.mpr (Pool.lt_size_of_className hname)
  unfold ClassPool.resolveClass
  simp only [if_neg hsize, get_bind, hlookup, hname]
  rfl

end

namespace Machine

/-- A followed reference gives the class that is registered under the name it stands for. -/
theorem Orderly.followed {m : Machine} (h : m.Orderly) {owner name : String} {pool : Pool}
    {index : UInt16} {c : Class} (hpool : m.pool? owner = some pool)
    (hname : pool.className index = .ok name)
    (hlookup : m.resolved.lookup (owner, index) = some c) :
    ∃ s, m.standing? name = some (c, s) := by
  rcases h.resolved (mem_of_lookup hlookup) with ⟨pool', s, hpool', hname', hstanding⟩
  rw [hpool] at hpool'
  cases hpool'
  rw [hname] at hname'
  cases hname'
  exact ⟨s, hstanding⟩

end Machine

namespace Host

variable {host : Host} {owner name : String} {pool : Pool} {index : UInt16} {m m' : Machine}
  {c : Class}

theorem loadClass_registered {s : ClassState} (host : Host) (fuel : Nat)
    (harray : Descriptor.isArray name = false) (h : m.standing? name = some (c, s)) :
    (host.load (fuel + 1)).loadClass name m =
      if s = .erroneous then .error (.fault (.illegal (.failedEarlier name))) m
      else .ok c m := by
  have hload := host.load_registered fuel harray h
  unfold Loader.loadClass
  split
  next hs =>
      rw [if_pos hs] at hload
      exact bind_of_error hload
  next hs =>
      rw [if_neg hs] at hload
      exact bind_of_ok hload

theorem loadClass_eq_ok (hnatives : host.natives.Lawful) (horderly : m.Orderly) {fuel : Nat}
    (h : (host.load fuel).loadClass name m = .ok c m') :
    m'.Orderly ∧ Extends m m' ∧ ∃ s, m'.standing? name = some (c, s) := by
  have hends := (load_loads False hnatives nofun fuel name m ⟨horderly, nofun⟩ nofun).2
  rcases bind_eq_ok h with ⟨l, m₁, hload, hclass⟩
  rw [hload] at hends
  cases l with
  | ofArray a => cases hclass
  | ofClass c₁ =>
      cases hclass
      rcases hends with ⟨⟨horderly', -⟩, hext, s, hstanding, -⟩
      exact ⟨horderly', hext, s, hstanding⟩

/-- A reference that was not followed yet is answered as the loader answers. -/
theorem resolveClass_eq_loadClass (hnatives : host.natives.Lawful) (horderly : m.Orderly)
    (hpool : m.pool? owner = some pool) (hname : pool.className index = .ok name)
    (hlookup : m.resolved.lookup (owner, index) = none) (fuel : Nat) :
    answerOf (ClassPool.resolveClass (host.load fuel) ⟨owner, pool⟩ index m) =
      answerOf ((host.load fuel).loadClass name m) := by
  rw [resolveClass_eq_load (p := ⟨owner, pool⟩) hname hlookup]
  cases hload : (host.load fuel).loadClass name m with
  | error e m' =>
      rw [bind_of_error hload]
  | ok c m' =>
      rw [bind_of_ok hload, get_bind]
      rcases loadClass_eq_ok hnatives horderly hload with ⟨horderly', hext, s, hstanding⟩
      -- The load may have followed the same reference, but it came to the same class.
      cases hlookup' : m'.resolved.lookup (owner, index) with
      | none => rfl
      | some first =>
          rcases horderly'.followed (hext.pools hpool) hname hlookup' with ⟨s', hfirst⟩
          rw [hstanding] at hfirst
          cases hfirst
          rfl

/-- Following a class reference and asking the loader for the class it names have the same answer,
unless the reference was followed before and its class has failed since; then the reference gives
this class, and the loader refuses it. -/
theorem resolveClass_agrees_iff (hnatives : host.natives.Lawful) (hreach : host.Reachable m)
    (hpool : m.pool? owner = some pool) (hname : pool.className index = .ok name)
    (harray : Descriptor.isArray name = false) (fuel : Nat) :
    (answerOf (ClassPool.resolveClass (host.load (fuel + 1)) ⟨owner, pool⟩ index m) =
        answerOf ((host.load (fuel + 1)).loadClass name m) ↔
      ¬ ∃ c, m.resolved.lookup (owner, index) = some c ∧
        m.standing? name = some (c, .erroneous)) ∧
    ∀ c, m.resolved.lookup (owner, index) = some c → m.standing? name = some (c, .erroneous) →
      ClassPool.resolveClass (host.load (fuel + 1)) ⟨owner, pool⟩ index m = .ok c m ∧
        (host.load (fuel + 1)).loadClass name m =
          .error (.fault (.illegal (.failedEarlier name))) m := by
  have horderly := hreach.orderly hnatives
  have hstale {c : Class} (hlookup : m.resolved.lookup (owner, index) = some c)
      (hfailed : m.standing? name = some (c, .erroneous)) :
      ClassPool.resolveClass (host.load (fuel + 1)) ⟨owner, pool⟩ index m = .ok c m ∧
        (host.load (fuel + 1)).loadClass name m =
          .error (.fault (.illegal (.failedEarlier name))) m := by
    refine ⟨resolveClass_followed (p := ⟨owner, pool⟩) hname hlookup, ?_⟩
    rw [loadClass_registered host fuel harray hfailed, if_pos rfl]
  refine ⟨⟨?_, ?_⟩, fun c => hstale⟩
  · rintro hagree ⟨c, hlookup, hfailed⟩
    rcases hstale hlookup hfailed with ⟨hresolve, hload⟩
    rw [hresolve, hload] at hagree
    cases hagree
  · intro hfresh
    cases hlookup : m.resolved.lookup (owner, index) with
    | none => exact resolveClass_eq_loadClass hnatives horderly hpool hname hlookup (fuel + 1)
    | some c =>
        rcases horderly.followed hpool hname hlookup with ⟨s, hstanding⟩
        have hs : s ≠ .erroneous := by
          rintro rfl
          exact hfresh ⟨c, hlookup, hstanding⟩
        rw [resolveClass_followed (p := ⟨owner, pool⟩) hname hlookup,
          loadClass_registered host fuel harray hstanding, if_neg hs]

end Host

namespace FollowedWhileLinked

/-!
The initializer of `A` calls a method of `B` that makes an object of `A`, and then divides by zero.
-/

def rows : List (String × List UInt8) :=
  [("A", Sample.file "A" (some rootName)
      [.utf8 "B", .classRef 8, .utf8 "make", .nameAndType 10 7, .methodRef 9 11]
      -- `invokestatic B.make; iconst_0; iconst_0; idiv; pop; return`
      [Sample.initializer [0xB8, 0, 12, 0x03, 0x03, 0x6C, 0x57, 0xB1]]),
    ("B", Sample.file "B" (some rootName) [.utf8 "A", .classRef 8, .utf8 "make"]
      -- `new A; pop; return`
      [⟨0x0009, 10, 7, [.code 5 ⟨2, 0, [0xBB, 0, 9, 0x57, 0xB1], []⟩ []]⟩])]

def host : Host := Sample.host rows

def machine : Machine :=
  endOf (host.load 8 "A") Machine.empty

theorem machine_facts :
    faultOf (host.load 8 "A" Machine.empty) = some (.zeroDivisor .quotient) ∧
      ((machine.pool? "B").bind fun pool => (pool.className 9).toOption) = some "A" ∧
        (machine.resolved.lookup ("B", 9)).isSome ∧
          (machine.standing? "A").map Prod.snd = some .erroneous := by
  decide +kernel

theorem machine_atRest : host.AtRest machine :=
  Host.AtRest.empty.load_fault machine_facts.1

theorem machine_pool :
    ∃ pool, machine.pool? "B" = some pool ∧ pool.className 9 = .ok "A" := by
  rcases Option.bind_eq_some_iff.mp machine_facts.2.1 with ⟨pool, hpool, hname⟩
  cases hclass : pool.className 9 with
  | error cause =>
      rw [hclass] at hname
      cases hname
  | ok name =>
      rw [hclass] at hname
      cases hname
      exact ⟨pool, hpool, hclass⟩

/-- The reference of `B` was followed, and the class it gives has failed. -/
theorem machine_stale :
    ∃ c, machine.resolved.lookup ("B", 9) = some c ∧
      machine.standing? "A" = some (c, .erroneous) := by
  rcases machine_pool with ⟨pool, hpool, hname⟩
  rcases machine_facts with ⟨-, -, hlookup, hfailed⟩
  rcases Option.isSome_iff_exists.mp hlookup with ⟨c, hlookup⟩
  have horderly := Host.Reachable.orderly Native.library_lawful (.inl machine_atRest)
  rcases horderly.followed hpool hname hlookup with ⟨s, hstanding⟩
  rw [hstanding] at hfailed
  cases hfailed
  exact ⟨c, hlookup, hstanding⟩

/-- The reference gives a class that has failed, and the loader refuses it. -/
theorem failed_class_resolved :
    host.AtRest machine ∧ ∃ pool c, machine.pool? "B" = some pool ∧ pool.className 9 = .ok "A" ∧
      machine.standing? "A" = some (c, .erroneous) ∧
        ClassPool.resolveClass (host.load 8) ⟨"B", pool⟩ 9 machine = .ok c machine ∧
          (host.load 8).loadClass "A" machine =
            .error (.fault (.illegal (.failedEarlier "A"))) machine := by
  rcases machine_pool with ⟨pool, hpool, hname⟩
  rcases machine_stale with ⟨c, hlookup, hfailed⟩
  refine ⟨machine_atRest, pool, c, hpool, hname, hfailed,
    resolveClass_followed (p := ⟨"B", pool⟩) hname hlookup, ?_⟩
  rw [Host.loadClass_registered host 7 (by decide) hfailed, if_pos rfl]

theorem failed_class_disagrees :
    host.Reachable machine ∧ ∃ pool, machine.pool? "B" = some pool ∧
      pool.className 9 = .ok "A" ∧
        answerOf (ClassPool.resolveClass (host.load 8) ⟨"B", pool⟩ 9 machine) ≠
          answerOf ((host.load 8).loadClass "A" machine) := by
  have hreach : host.Reachable machine := .inl machine_atRest
  rcases machine_pool with ⟨pool, hpool, hname⟩
  have hagrees := (Host.resolveClass_agrees_iff Native.library_lawful hreach hpool hname
    (by decide) 7).1
  exact ⟨hreach, pool, hpool, hname, fun h => hagrees.mp h machine_stale⟩

end FollowedWhileLinked

end Bytecode
