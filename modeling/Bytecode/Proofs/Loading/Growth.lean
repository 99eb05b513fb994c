import Bytecode.Proofs.Contract.Thread
import Bytecode.Proofs.Loading.Load

/-!
# What no request removes

Objects stay where they are and keep their shape, and constant tables stay.  This needs nothing of
the machine that a request starts from: it holds in any state, whatever the class path answers and
however the requests nest.
-/

namespace Bytecode

open Machine

/-- Requests that remove neither objects nor constant tables. -/
def growth : Charter where
  inv _ := True
  rel m m' := Grows m m' ∧ ∀ {name pool}, m.pool? name = some pool → m'.pool? name = some pool
  err _ := True
  rel_refl _ := ⟨Grows.of_eq rfl, id⟩
  rel_trans h h' := ⟨h.1.trans h'.1, fun hpool => h'.2 (h.2 hpool)⟩
  grounded := False
  loaded _ _ _ := True
  closed _ := False.elim
  ground _ := False.elim
  supplied _ := False.elim
  stays _ := False.elim
  work _ hworks hgrows _ := by
    refine ⟨trivial, hgrows, fun hpool => ?_⟩
    rw [pool?, hworks.pools]
    exact hpool
  remember _ _ _ _ _ := ⟨trivial, Grows.of_eq rfl, id⟩
  pools h := h.2
  ordinary _ := trivial
  plain _ _ := trivial

namespace Growth

variable {load : Loader} {invoke : Method → MachineM Unit} {path : ClassPath} {name : String}

theorem modify_same {g : Machine → Machine} (hobjects : ∀ m, (g m).objects = m.objects)
    (hpools : ∀ m, (g m).pools = m.pools) : growth.Same (modify g) (modify g) :=
  .modify fun m _ => ⟨trivial, Grows.of_eq (hobjects m), fun hpool => by
    rw [pool?, hpools]
    exact hpool⟩

theorem registerPool_same (name : String) (pool : Pool) :
    growth.Same (modify (·.registerPool name pool)) (modify (·.registerPool name pool)) := by
  refine .modify fun m _ => ⟨trivial, ?_⟩
  unfold registerPool
  split
  · exact growth.rel_refl m
  · refine ⟨Grows.of_eq rfl, fun {n p} hpool => ?_⟩
    unfold pool? at hpool ⊢
    simp [List.lookup_append, hpool]

theorem registerClass_same (c : Class) :
    growth.Same (modifyGet (·.registerClass c)) (modifyGet (·.registerClass c)) := by
  intro m _ _
  have hrel : growth.rel m (m.registerClass c).2 := by
    unfold registerClass
    split
    · exact growth.rel_refl m
    · exact ⟨Grows.of_eq rfl, id⟩
  exact ⟨rfl, trivial, hrel, trivial⟩

theorem readClassFile_same (path : ClassPath) (name : String) :
    growth.Same (readClassFile path name) (readClassFile path name) := by
  refine .get_bind fun m => (Terms.Same.lift fun _ _ => trivial).bind fun bytes =>
    (Terms.Same.liftMalformed fun _ _ => trivial).bind fun file => ?_
  exact .ite (fun _ => .fail_bind trivial) fun _ => .pure _

section

variable (hload : growth.Loaders load load)

include hload

theorem link_same (file : ClassFile) : growth.Same (link load file) (link load file) := by
  have hparent : growth.Same (loadParent load file) (loadParent load file) := by
    unfold loadParent
    split
    · refine .ite (fun _ => .fail_bind trivial) fun _ => ?_
      exact (Charter.loadClass_same hload _).bind fun _ =>
        .ite (fun _ => .fail_bind trivial) fun _ => .pure _
    · exact .ite (fun _ => .fail_bind trivial) fun _ => .pure _
  have hinterface (n : String) :
      growth.Same (loadInterface load file.name n) (loadInterface load file.name n) :=
    (Charter.loadClass_same hload n).bind fun _ =>
      .ite (fun _ => .fail_bind trivial) fun _ => .pure _
  exact hparent.bind fun _ => (Terms.Alike.mapM fun n _ => hinterface n).bind fun _ =>
    (Terms.Same.liftMalformed fun _ _ => trivial).bind fun _ => .pure _

variable (hinvoke : ∀ method, growth.Same (invoke method) (invoke method))

include hinvoke

theorem enterInitialized_same (c : Class) :
    growth.Same (enterInitialized load invoke c) (enterInitialized load invoke c) := by
  intro m hinv _
  refine ⟨rfl, ?_⟩
  have hrun : growth.Ends (fun _ _ => True) m (runInitializer load invoke c m) := by
    cases hpool : m.pool? c.name with
    | some pool =>
        exact (runInitializer_alike (fun _ => ⟨hload, fun method => (hinvoke method).alike⟩) m hinv
          ⟨hpool, False.elim⟩).2
    | none =>
        unfold runInitializer
        rw [get_bind, hpool]
        exact ⟨trivial, growth.rel_refl m, trivial⟩
  unfold enterInitialized
  cases h : runInitializer load invoke c m with
  | ok a m' =>
      rw [h] at hrun
      exact hrun
  | error e m' =>
      rw [h] at hrun
      cases e with
      | fault f => exact hrun
      | outOfFuel => trivial

theorem define_same (path : ClassPath) (name : String) :
    growth.Same (define path load invoke name) (define path load invoke name) := by
  refine (readClassFile_same path name).bind fun file => (link_same hload file).bind fun c =>
    (registerPool_same name file.pool).bind fun _ => (registerClass_same c).bind fun added => ?_
  refine .ite (fun _ => .get_bind fun m => ?_) fun _ => .get_bind fun m => ?_
  · have hrest := (enterInitialized_same hload hinvoke c).bind fun _ => Terms.Same.pure c
    refine .ite (fun _ => ?_) fun _ => hrest
    exact (Charter.classObject_same (Charter.loadClass_has hload _) name).bind fun _ => hrest
  · split
    · exact .pure _
    · exact .fail trivial

theorem loadWith_loaders (path : ClassPath) :
    growth.Loaders (loadWith path load invoke) (loadWith path load invoke) := by
  intro name
  refine Terms.Same.ite (fun _ => ?_) fun _ => .get_bind fun m => ?_
  · exact (Charter.arrayClass_same id name).bind fun _ => .pure _
  · split
    · exact .ite (fun _ => .fail_bind trivial) fun _ => .pure _
    · refine .get_bind fun m => .ite (fun _ => .fail_bind trivial) fun _ => ?_
      refine Terms.Same.bind (modify_same (fun _ => rfl) fun _ => rfl) fun _ =>
        Terms.Same.bind ?_ fun c => .pure _
      -- the name leaves the list of those being loaded, however the load ends
      intro m hinv _
      have hends := (define_same hload hinvoke path name m hinv trivial).2
      refine ⟨rfl, ?_⟩
      unfold always
      cases h : define path load invoke name m with
      | ok c m' =>
          rw [h] at hends
          exact hends
      | error e m' =>
          rw [h] at hends
          cases e with
          | fault f => exact hends
          | outOfFuel => trivial

end
end Growth

/-- Whatever a host loads, nothing is removed on the way. -/
theorem Host.load_growth {host : Host} (hnatives : host.natives.Keeps growth) (fuel : Nat) :
    growth.Loaders (host.load fuel) (host.load fuel) := by
  induction fuel with
  | zero => exact fun _ _ _ _ => ⟨rfl, trivial⟩
  | succ fuel ih =>
      refine Growth.loadWith_loaders ih (fun method => ?_) host.path
      have hrun : growth.Same (Thread.invoke host (host.load fuel) fuel method [])
          (Thread.invoke host (host.load fuel) fuel method []) :=
        (Charter.invoke_alike hnatives ih fuel method []).mono (fun _ _ _ => False.elim)
          fun _ _ _ _ => trivial
      exact hrun.bind fun _ => .pure _

end Bytecode
