import Bytecode.Proofs.Contract.Charter

/-!
# Requests to the machine under a charter

Objects are made and changed, and symbolic references are followed, with the help of the loader.
-/

namespace Bytecode

open Machine Contract

variable {α : Type}

namespace Charter

variable {C : Charter} {load₁ load₂ : Loader}

/-!
# Objects
-/

theorem has_object {m : Machine} (hinv : C.inv m) {address : Nat} {o : Object}
    (ho : m.objects[address]? = some o) : C.Has o.receiverClass m := fun hg =>
  (C.ground hinv hg).objects o (Array.mem_of_getElem? ho)

theorem alloc_alike (o : Object) :
    C.Alike (C.Has o.receiverClass) (fun _ _ => True) (alloc o) (alloc o) := by
  intro m hinv ho
  have hwork : Works m { m with objects := m.objects.push o } := ⟨rfl, rfl, rfl, rfl⟩
  rcases C.work hinv hwork (Grows.push o) fun hg => (C.ground hinv hg).push (ho hg) with
    ⟨hinv', hrel⟩
  exact ⟨rfl, hinv', hrel, trivial⟩

theorem object_alike {P : Machine → Prop} (address : Nat) :
    C.Alike P (fun o m => m.objects[address]? = some o ∧ P m) (object address)
      (object address) := by
  refine .get_bind fun m hm => ?_
  split
  next o ho =>
      refine .pure fun s _ hs => ?_
      rw [hs]
      exact ⟨ho, hm⟩
  next => exact .fail (C.ordinary nofun)

theorem object_same (address : Nat) : C.Same (object address) (object address) :=
  (object_alike address).same

theorem instanceAt_alike {P : Machine → Prop} (address : Nat) :
    C.Alike P (fun i m => m.objects[address]? = some (.ofInstance i) ∧ P m) (instanceAt address)
      (instanceAt address) := by
  refine (object_alike address).bind fun o =>
    .lift (fun f hf => C.ordinary (o.asInstance_fails f hf)) fun i m hi hm => ?_
  cases o with
  | ofArray a => cases hi
  | ofInstance i' =>
      cases hi
      exact hm

theorem instanceAt_same (address : Nat) : C.Same (instanceAt address) (instanceAt address) :=
  (instanceAt_alike address).same

theorem arrayAt_alike {P : Machine → Prop} (address : Nat) :
    C.Alike P (fun a m => m.objects[address]? = some (.ofArray a) ∧ P m) (arrayAt address)
      (arrayAt address) := by
  refine (object_alike address).bind fun o =>
    .lift (fun f hf => C.ordinary (o.asArray_fails f hf)) fun a m ha hm => ?_
  cases o with
  | ofInstance i => cases ha
  | ofArray a' =>
      cases ha
      exact hm

theorem arrayAt_same (address : Nat) : C.Same (arrayAt address) (arrayAt address) :=
  (arrayAt_alike address).same

theorem setObject_alike (address : Nat) (o : Object) :
    C.Alike (fun m => ∃ old, m.objects[address]? = some old ∧ o.shape = old.shape)
      (fun _ _ => True) (setObject address o) (setObject address o) := by
  apply Terms.Alike.modify
  rintro m hinv ⟨old, hold, hshape⟩
  have hwork : Works m { m with objects := m.objects.setIfInBounds address o } :=
    ⟨rfl, rfl, rfl, rfl⟩
  rcases C.work hinv hwork (Grows.put hold hshape) fun hg =>
    (C.ground hinv hg).put hold hshape with ⟨hinv', hrel⟩
  exact ⟨hinv', hrel, trivial⟩

theorem loadElement_same (address : Nat) (index : Int32) :
    C.Same (loadElement address index) (loadElement address index) :=
  (arrayAt_same address).bind fun a => lift_same (a.store.load_fails index)

theorem storeElement_same (address : Nat) (index : Int32) (value : Value) :
    C.Same (storeElement address index value) (storeElement address index value) := by
  refine (arrayAt_alike address).bind fun a => ?_
  refine .bind (Q := fun store m => a.store.store index value = .ok store ∧
    m.objects[address]? = some (.ofArray a)) ?_ fun store => ?_
  · exact .lift (fun f hf => C.ordinary (a.store.store_fails index value f hf))
      fun _ _ hstore hm => ⟨hstore, hm.1⟩
  · refine (setObject_alike address _).mono (fun m _ hm => ⟨_, hm.2, ?_⟩) fun _ _ _ hq => hq
    simp only [Object.shape, Store.size_of_store hm.1]

theorem copyElements_same (source : Nat) (sourceStart : Int32) (target : Nat)
    (targetStart length : Int32) :
    C.Same (copyElements source sourceStart target targetStart length)
      (copyElements source sourceStart target targetStart length) := by
  refine (arrayAt_same source).bind fun s => (arrayAt_alike target).bind fun t => ?_
  refine .bind (Q := fun result m =>
    s.store.copyInto t.store sourceStart targetStart length = .ok result ∧
      m.objects[target]? = some (.ofArray t)) ?_ fun result => ?_
  · exact .lift (fun f hf => C.ordinary
      (s.store.copyInto_fails t.store sourceStart targetStart length f hf))
      fun _ _ hcopy hm => ⟨hcopy, hm.1⟩
  · cases result with
    | some store =>
        refine (setObject_alike target _).mono (fun m _ hm => ⟨_, hm.2, ?_⟩) fun _ _ _ hq => hq
        simp only [Object.shape, Store.size_of_copyInto hm.1]
    | none => exact .fail (C.ordinary nofun)

/-!
# Creation
-/

theorem loadClass_alike (h : C.Loaders load₁ load₂) (name : String) :
    C.Alike (fun _ => True) (fun c => C.loaded name (.ofClass c)) (load₁.loadClass name)
      (load₂.loadClass name) := by
  refine (h name).bind fun l => ?_
  cases l with
  | ofClass c => exact .pure fun _ _ hc => hc
  | ofArray a => exact .fail (C.ordinary nofun)

theorem loadClass_has (h : C.Loaders load₁ load₂) (name : String) :
    C.Alike (fun _ => True) C.Has (load₁.loadClass name) (load₂.loadClass name) :=
  (loadClass_alike h name).mono (fun _ _ _ => trivial) fun _ _ _ hc => C.supplied hc

theorem loadClass_same (h : C.Loaders load₁ load₂) (name : String) :
    C.Same (load₁.loadClass name) (load₂.loadClass name) :=
  (loadClass_alike h name).same

theorem loadArray_has (h : C.Loaders load₁ load₂) (name : String) :
    C.Alike (fun _ => True) (fun a => C.Has a.parent) (load₁.loadArray name)
      (load₂.loadArray name) := by
  refine (h name).bind fun l => ?_
  cases l with
  | ofClass c => exact .fail (C.ordinary nofun)
  | ofArray a => exact .pure fun _ _ ha => C.supplied ha

theorem newArrayOf_alike (cls : ArrayClass) (length : Int32) :
    C.Alike (C.Has cls.parent) (fun _ _ => True) (newArrayOf cls length)
      (newArrayOf cls length) := by
  unfold newArrayOf
  dsimp only
  split
  · exact .fail_bind (C.ordinary nofun)
  · exact alloc_alike (.ofArray ⟨cls, _⟩)

theorem newArrayWith_alike (cls : ArrayClass) (contents : Store) :
    C.Alike (C.Has cls.parent) (fun _ _ => True) (newArrayWith cls contents)
      (newArrayWith cls contents) := by
  unfold newArrayWith
  dsimp only
  split
  · exact .fail_bind (C.ordinary nofun)
  · split
    · exact .fail_bind (C.ordinary nofun)
    · exact alloc_alike (.ofArray ⟨cls, contents⟩)

theorem newArray_same (h : C.Loaders load₁ load₂) (name : String) (length : Int32) :
    C.Same (newArray load₁ name length) (newArray load₂ name length) :=
  (loadArray_has h name).bind fun cls => newArrayOf_alike cls length

theorem fillArray_same {make₁ make₂ : MachineM Nat} (h : C.Same make₁ make₂) (address index : Nat)
    (count : Nat) :
    C.Same (fillArray address make₁ index count) (fillArray address make₂ index count) := by
  induction count generalizing index with
  | zero => exact .pure ()
  | succ count ih =>
      exact h.bind fun _ => (storeElement_same address _ _).bind fun _ => ih (index + 1)

theorem nestedArray_same (h : C.Loaders load₁ load₂) (name : String) (lengths : List Int32) :
    C.Same (nestedArray load₁ name lengths) (nestedArray load₂ name lengths) := by
  induction lengths generalizing name with
  | nil => exact .fail (C.ordinary nofun)
  | cons length inner ih =>
      refine (loadArray_has h name).bind fun cls => (newArrayOf_alike cls length).bind fun a =>
        Terms.Same.ite (fun _ => ?_) fun _ => .pure _
      exact (fillArray_same (ih cls.component) a 0 _).bind fun _ => .pure _

theorem newMultiArray_same (h : C.Loaders load₁ load₂) (name : String) (lengths : List Int32) :
    C.Same (newMultiArray load₁ name lengths) (newMultiArray load₂ name lengths) := by
  unfold newMultiArray
  split
  · exact .fail (C.ordinary nofun)
  · exact nestedArray_same h name lengths

theorem putIfPresent_cls (i : Instance) (name descriptor : String) (value : Value) :
    (putIfPresent i name descriptor value).cls = i.cls := by
  unfold putIfPresent
  split
  · rfl
  · rfl

theorem newString_same (h : C.Loaders load₁ load₂) (text : String) :
    C.Same (newString load₁ text) (newString load₂ text) := by
  refine (loadClass_has h stringName).bind fun cls => ?_
  dsimp only
  split
  next =>
      refine ((lift_same (encodeText_fails _ _)).along Has.keep).bind fun encoded => ?_
      refine ((loadArray_has h _).along Has.keep).bind fun arrayCls => ?_
      refine ((newArrayWith_alike arrayCls encoded.1).keep Has.keep).bind fun _ => ?_
      refine (alloc_alike _).mono (fun m _ hcls => ?_) fun _ _ _ hq => hq
      -- neither coding nor hash changes the class
      rw [Object.receiverClass, putIfPresent_cls]
      split
      · rw [putIfPresent_cls]
        exact hcls.2
      · exact hcls.2
  next => exact .fail (C.ordinary nofun)

/-!
# Objects that stand for types
-/

section

-- objects that stand for types need only the class of such objects
variable (h : C.Alike (fun _ => True) C.Has (load₁.loadClass classClassName)
  (load₂.loadClass classClassName))

include h

theorem newClassObject_same (name : String) :
    C.Same (newClassObject load₁ name) (newClassObject load₂ name) :=
  h.bind fun cls => alloc_alike (.ofInstance { Instance.ofClass cls with reflects := some name })

theorem classObject_same (name : String) :
    C.Same (classObject load₁ name) (classObject load₂ name) := by
  refine .get_bind fun m => ?_
  split
  · exact .pure _
  · refine (newClassObject_same h name).bind fun created => .get_bind fun m => ?_
    split
    · exact .pure _
    · refine Terms.Same.bind (modify_same (fun m => ?_) (fun _ => rfl) fun m hm => ?_)
        fun _ => .pure _
      · exact modifyEntry_works m name fun _ => ⟨rfl, rfl⟩
      · exact hm.modifyEntry name (fun _ => rfl) fun _ => rfl

theorem arrayClassObject_same (name : String) :
    C.Same (arrayClassObject load₁ name) (arrayClassObject load₂ name) := by
  refine .get_bind fun m => ?_
  split
  · exact .pure _
  · refine (newClassObject_same h name).bind fun created => .get_bind fun m => ?_
    split
    · exact .pure _
    · refine Terms.Same.bind (modify_same (fun _ => ⟨rfl, rfl, rfl, rfl⟩) (fun _ => rfl)
        fun m hm => ?_) fun _ => .pure _
      refine hm.mapArrays fun e => ?_
      split
      · rfl
      · rfl

theorem primitiveClassObject_same (name : String) :
    C.Same (primitiveClassObject load₁ name) (primitiveClassObject load₂ name) := by
  refine .ite (fun _ => .fail_bind (C.ordinary nofun)) fun _ => .get_bind fun m => ?_
  split
  · exact .pure _
  · refine (newClassObject_same h name).bind fun created => .get_bind fun m => ?_
    split
    · exact .pure _
    · exact Terms.Same.bind (modify_same (fun _ => ⟨rfl, rfl, rfl, rfl⟩) (fun _ => rfl)
        fun m hm => hm.congr rfl rfl rfl rfl) fun _ => .pure _

end

theorem typeObject_same (h : C.Loaders load₁ load₂) (name : String) :
    C.Same (typeObject load₁ name) (typeObject load₂ name) := by
  have hclass := loadClass_has h classClassName
  refine .ite (fun _ => primitiveClassObject_same hclass name) fun _ =>
    (h name).same.bind fun l => ?_
  cases l with
  | ofClass c => exact classObject_same hclass c.name
  | ofArray a => exact arrayClassObject_same hclass a.name

theorem storeTexts_same (h : C.Loaders load₁ load₂) (address : Nat) (texts : List String)
    (index : Nat) :
    C.Same (Native.storeTexts load₁ address index texts)
      (Native.storeTexts load₂ address index texts) := by
  induction texts generalizing index with
  | nil => exact .pure ()
  | cons text rest ih =>
      exact (newString_same h text).bind fun _ => (storeElement_same address _ _).bind
        fun _ => ih (index + 1)

/-!
# Resolution
-/

theorem has_resolved {m : Machine} (hinv : C.inv m) {key : String × UInt16} {c : Class}
    (h : m.resolved.lookup key = some c) : C.Has c m := by
  intro hg
  rcases List.lookup_eq_some_iff.mp h with ⟨before, after, hsplit, -⟩
  apply (C.ground hinv hg).resolved (key, c)
  rw [hsplit]
  exact List.mem_append_right before List.mem_cons_self

theorem resolveClass_alike (h : C.Loaders load₁ load₂) (p : ClassPool) (index : UInt16) :
    C.Alike (Known p) C.Has (p.resolveClass load₁ index) (p.resolveClass load₂ index) := by
  unfold ClassPool.resolveClass
  dsimp only
  split
  · exact .fail_bind (C.ordinary nofun)
  · refine .get_bind fun m hm => ?_
    split
    next hcached =>
        refine .pure fun s hinv hs => ?_
        subst hs
        exact has_resolved hinv hcached
    next =>
        refine .bind (Q := fun name s => p.className index = .ok name ∧ Known p s) ?_
          fun name => ?_
        · refine .liftMalformed
            (fun f hf => C.ordinary (p.pool.className_fails index f hf).ordinary)
            fun name s hname hs => ⟨hname, ?_⟩
          rw [hs]
          exact hm
        · refine .assume fun _ _ hs => ?_
          refine (((loadClass_alike h name).along (F := Known p) C.pools).mono
            (fun _ _ hs => hs.2) fun _ _ _ hq => hq).bind fun c => ?_
          refine .get_bind fun m' hm' => ?_
          split
          next hcached =>
              refine .pure fun s hinv hs' => ?_
              subst hs'
              exact has_resolved hinv hcached
          next hnone =>
              refine .bind (Q := fun _ => C.Has c) (.modify fun s hinv hs' => ?_)
                fun _ => .pure fun _ _ hc => hc
              subst hs'
              rcases C.remember hinv hm'.2 hs.1 hm'.1 hnone with ⟨hinv', hrel⟩
              exact ⟨hinv', hrel, Has.keep hrel (C.supplied hm'.1)⟩

theorem resolveStatic_alike (h : C.Loaders load₁ load₂) (p : ClassPool) (index : UInt16) :
    C.Alike (fun _ => True) (fun f m => C.grounded → ∃ value, m.static? f = some value)
      (p.resolveStatic load₁ index) (p.resolveStatic load₂ index) := by
  refine Terms.Alike.bind (liftMalformed_same (p.pool.member_fails p.owner index)) fun member =>
    (loadClass_has h member.owner).bind fun c => ?_
  intro m hinv hc
  have hfails := c.staticField_fails member.name member.descriptor
  cases hf : c.staticField member.name member.descriptor with
  | error f => exact ⟨rfl, hinv, C.rel_refl m, C.ordinary (hfails f hf)⟩
  | ok f =>
      exact ⟨rfl, hinv, C.rel_refl m,
        fun hg => (C.closed hinv hg).static? (C.ground hinv hg) (hc hg) hf⟩

theorem calls_method {m : Machine} (hinv : C.inv m) {c : Class} (hc : C.Has c m)
    {name descriptor : String} {method : Method} (h : c.method? name descriptor = some method) :
    C.Calls method m := fun hg =>
  (C.closed hinv hg).method (hc hg) h

theorem resolveMethod_alike (h : C.Loaders load₁ load₂) (p : ClassPool) (index : UInt16) :
    C.Alike (fun _ => True) C.Calls (p.resolveMethod load₁ index)
      (p.resolveMethod load₂ index) := by
  refine Terms.Alike.bind (liftMalformed_same (p.pool.member_fails p.owner index)) fun member =>
    (loadClass_has h _).bind fun c => ?_
  dsimp only
  split
  · exact .fail_bind (C.ordinary nofun)
  · split
    next hmethod => exact .pure fun _ hinv hc => calls_method hinv hc hmethod
    next => exact .fail (C.ordinary nofun)

theorem literal_same (h : C.Loaders load₁ load₂) (p : ClassPool) (index : UInt16) :
    C.Same (p.literal load₁ index) (p.literal load₂ index) := by
  refine (liftMalformed_same (p.pool.get_fails index)).bind fun constant => ?_
  split
  · exact .pure _
  · exact .pure _
  · exact .pure _
  · exact .pure _
  · exact (liftMalformed_same (p.pool.utf8_fails _)).bind fun text =>
      (newString_same h text).bind fun _ => .pure _
  · exact (liftMalformed_same (p.pool.className_fails index)).bind fun name =>
      (typeObject_same h name).bind fun _ => .pure _
  · exact .fail (C.ordinary nofun)
  · exact .fail (C.ordinary nofun)
  · exact .fail (C.ordinary nofun)
  · exact .fail (C.ordinary nofun)

theorem isInstanceOf_same (h : C.Loaders load₁ load₂) (address : Nat) (target : String) :
    C.Same (isInstanceOf load₁ address target) (isInstanceOf load₂ address target) := by
  refine (object_same address).bind fun o => ?_
  cases o with
  | ofArray a => exact .get_bind fun m => .pure _
  | ofInstance i =>
      exact .ite (fun _ => .pure _) fun _ => (loadClass_same h target).bind fun t => .pure _

/-- Where nothing is said about what comes up, an array class may be asked for whether or not the
root is missing. -/
theorem arrayClass_same (hg : ¬ C.grounded) (name : String) :
    C.Same (arrayClass name) (arrayClass name) := by
  refine .get_bind fun m => ?_
  split
  · exact .pure _
  · refine .get_bind fun m => ?_
    split
    · refine (liftMalformed_same (ArrayClass.ofName_fails name _)).bind fun cls => ?_
      refine Terms.Same.bind (.modify fun m hinv => ?_) fun _ => .pure _
      exact C.work hinv ⟨rfl, rfl, rfl, rfl⟩ (Grows.of_eq rfl) fun h => absurd h hg
    · exact .fail (C.plain hg nofun)

end Charter
end Bytecode
