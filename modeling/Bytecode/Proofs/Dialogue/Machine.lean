import Bytecode.Proofs.Dialogue.Conduct

/-!
# Requests to the machine in dialogue

Objects are made and changed, and symbolic references are followed, in dialogue with the loader.
Each change of the heap keeps it typed.
-/

namespace Bytecode

open Machine

variable {α β : Type}

theorem Machine.Sound.fill {m : Machine} (h : m.Sound) (address : Nat) (p : TypePlace) :
    (m.fill address p).Sound := by
  cases p with
  | ofPrimitive name => exact ⟨h.classes, h.arrays, h.resolved, h.objects⟩
  | ofClass name => exact h.modifyEntry name fun e he _ => h.classes e he
  | ofArray name =>
      refine ⟨h.classes, fun e he => ?_, h.resolved, h.objects⟩
      obtain ⟨e', he', rfl⟩ := List.mem_map.mp he
      split
      · exact h.arrays e' he'
      · exact h.arrays e' he'

namespace Scene

variable {σ : Type} {K : Conduct} {S : Scene K σ}

theorem Talks.assume {P : σ → Prop} {Q : α → σ → Prop} {x : Oracle → EStateM Halt σ α}
    (h : ∀ s, S.inv s → P s → S.Talks P Q x) : S.Talks P Q x := by
  intro s hinv hs
  exact h s hinv hs s hinv hs

theorem Talks.lift {P : σ → Prop} {x : Except Fault α} (h : FailsWith Fault.Ordinary x)
    (herr : ∀ {f : Fault}, f.Plain → S.err f) :
    S.Talks P (fun a s => x = .ok a ∧ P s) fun _ => liftM x :=
  .of_alike (.lift (fun f hf => herr (h f hf).plain) fun _ _ ha hs => ⟨ha, hs⟩)

theorem Talks.liftMalformed {P : σ → Prop} {x : Except Malformed α}
    (h : FailsWith Malformed.Plain x) (herr : ∀ {f : Fault}, f.Plain → S.err f) :
    S.Talks P (fun a s => x = .ok a ∧ P s) fun _ => liftM x :=
  .of_alike (.liftMalformed (fun f hf => herr (h f hf).fault) fun _ _ ha hs => ⟨ha, hs⟩)

end Scene

namespace Conduct

open Scene

variable {K : Conduct}

section

variable (K)

theorem lift_speaks {x : Except Fault α} (h : FailsWith Fault.Ordinary x) :
    K.scene.Speaks fun _ => liftM x :=
  (Talks.lift h K.plain).speaks

theorem liftMalformed_speaks {x : Except Malformed α} (h : FailsWith Malformed.Plain x) :
    K.scene.Speaks fun _ => liftM x :=
  (Talks.liftMalformed h K.plain).speaks

variable {K} in
theorem work_of_eq {m m' : Machine} (hinv : K.inv m) (hworks : Works m m')
    (hclasses : m'.classes = m.classes) (harrays : m'.arrays = m.arrays)
    (hprimitives : m'.primitives = m.primitives) (hobjects : m'.objects = m.objects) :
    K.inv m' ∧ K.rel m m' := by
  refine K.work hinv hworks (.of_eq hclasses harrays hprimitives hobjects) fun ht =>
    ⟨?_, Grows.of_eq hobjects⟩
  obtain ⟨hc, ha, hr, ho⟩ := K.sound hinv ht
  refine ⟨?_, ?_, ?_, ?_⟩
  · rwa [hclasses]
  · rwa [harrays]
  · rwa [hworks.resolved]
  · rwa [hobjects]

/-!
# Objects
-/

theorem alloc_talks {o : Object} (ho : K.typed → o.Typed) :
    K.scene.Talks (fun _ => True) (fun address m => m.reflected? address = o.reflects?)
      fun _ => alloc o := by
  apply Talks.of_alike (y := alloc o)
  intro m hinv _
  have hwork : Works m { m with objects := m.objects.push o } := ⟨rfl, rfl, rfl, rfl⟩
  obtain ⟨hinv', hrel⟩ := K.work hinv hwork (Spares.push m o).upholds fun ht =>
    (K.sound hinv ht).push (ho ht)
  exact ⟨rfl, hinv', hrel, reflected?_push m o⟩

theorem alloc_speaks {o : Object} (ho : K.typed → o.Typed) : K.scene.Speaks fun _ => alloc o :=
  (alloc_talks K ho).speaks

theorem object_talks {P : Machine → Prop} (address : Nat) :
    K.scene.Talks P (fun o m => m.objects[address]? = some o ∧ P m) fun _ => object address := by
  refine .get_bind fun m hm => ?_
  cases ho : m.objects[address]? with
  | some o =>
      apply Talks.pure
      intro s _ hs
      rw [hs]
      exact ⟨ho, hm⟩
  | none => exact .fail (K.plain nofun)

theorem object_speaks (address : Nat) : K.scene.Speaks fun _ => object address :=
  (object_talks K address).speaks

theorem instanceAt_talks {P : Machine → Prop} (address : Nat) :
    K.scene.Talks P (fun i m => m.objects[address]? = some (.ofInstance i) ∧ P m)
      fun _ => instanceAt address := by
  refine (object_talks K address).bind fun o => ?_
  apply (Talks.lift o.asInstance_fails K.plain).mono (fun _ _ hs => hs)
  intro i m _ hq
  cases o with
  | ofArray a => cases hq.1
  | ofInstance i' =>
      cases hq.1
      exact hq.2

theorem instanceAt_speaks (address : Nat) : K.scene.Speaks fun _ => instanceAt address :=
  (instanceAt_talks K address).speaks

theorem arrayAt_talks {P : Machine → Prop} (address : Nat) :
    K.scene.Talks P (fun a m => m.objects[address]? = some (.ofArray a) ∧ P m)
      fun _ => arrayAt address := by
  refine (object_talks K address).bind fun o => ?_
  apply (Talks.lift o.asArray_fails K.plain).mono (fun _ _ hs => hs)
  intro a m _ hq
  cases o with
  | ofInstance i => cases hq.1
  | ofArray a' =>
      cases hq.1
      exact hq.2

theorem arrayAt_speaks (address : Nat) : K.scene.Speaks fun _ => arrayAt address :=
  (arrayAt_talks K address).speaks

/-- A typed object may take the place of one of its shape that stands for the same type. -/
theorem setObject_talks (address : Nat) (o : Object) :
    K.scene.Talks
      (fun m => ∃ old, m.objects[address]? = some old ∧ o.reflects? = old.reflects? ∧
        (K.typed → m.Sound → o.Typed ∧ o.shape = old.shape))
      (fun _ _ => True) fun _ => setObject address o := by
  apply Talks.of_alike (y := setObject address o)
  apply Terms.Alike.modify
  rintro m hinv ⟨old, hold, hreflects, htyped⟩
  have hwork : Works m { m with objects := m.objects.setIfInBounds address o } :=
    ⟨rfl, rfl, rfl, rfl⟩
  rcases K.work hinv hwork (Spares.put hold hreflects).upholds fun ht =>
    have hsound := K.sound hinv ht
    hsound.put (htyped ht hsound).1 hold (htyped ht hsound).2 with ⟨hinv', hrel⟩
  exact ⟨hinv', hrel, trivial⟩

theorem loadElement_speaks (address : Nat) (index : Int32) :
    K.scene.Speaks fun _ => loadElement address index :=
  (arrayAt_speaks K address).bind fun a => lift_speaks K (a.store.load_fails index)

theorem typed_of_getElem? {m : Machine} (h : m.Sound) {address : Nat} {o : Object}
    (ho : m.objects[address]? = some o) : o.Typed :=
  h.objects o (Array.mem_of_getElem? ho)

theorem storeElement_speaks (address : Nat) (index : Int32) (value : Value) :
    K.scene.Speaks fun _ => storeElement address index value := by
  refine Talks.bind (arrayAt_talks K address) fun a => ?_
  refine Talks.bind (Talks.lift (a.store.store_fails index value) K.plain) fun store => ?_
  apply (setObject_talks K address _).mono _ fun _ _ _ h => h
  rintro m _ ⟨hstore, harray, -⟩
  refine ⟨_, harray, rfl, fun _ hsound => ?_⟩
  rcases typed_of_getElem? hsound harray with ⟨hhonest, hlayout, hitems⟩
  rcases hitems.store hstore with ⟨hitems', hlayout', hsize⟩
  constructor
  · exact ⟨hhonest, hlayout'.trans hlayout, hitems'⟩
  · simp only [Object.shape, hsize]

theorem copyElements_speaks (source : Nat) (sourceStart : Int32) (target : Nat)
    (targetStart length : Int32) :
    K.scene.Speaks fun _ => copyElements source sourceStart target targetStart length := by
  refine Talks.bind (arrayAt_talks K source) fun s => ?_
  refine Talks.bind (arrayAt_talks K target) fun t => ?_
  refine Talks.bind (Talks.lift
    (s.store.copyInto_fails t.store sourceStart targetStart length) K.plain) fun result => ?_
  cases result with
  | none => exact .fail (K.plain nofun)
  | some store =>
      apply (setObject_talks K target _).mono _ fun _ _ _ h => h
      rintro m _ ⟨hcopy, htarget, hsource, -⟩
      refine ⟨_, htarget, rfl, fun _ hsound => ?_⟩
      have hitems := (typed_of_getElem? hsound hsource).2.2
      rcases typed_of_getElem? hsound htarget with ⟨hhonest, hlayout, hitems'⟩
      rcases hitems.copyInto hitems' hcopy with ⟨hresult, hlayout', hsize⟩
      constructor
      · exact ⟨hhonest, hlayout'.trans hlayout, hresult⟩
      · simp only [Object.shape, hsize]

/-!
# Creation
-/

theorem load_talks (name : String) :
    K.scene.Talks (fun _ => True) (K.loaded name) fun o => o.load name := by
  intro m hinv _
  have hask : K.manner.asks (.begun m) (.load name) m := ⟨hinv, K.rel_refl m, nofun⟩
  apply Dialogue.ask (q := .load name) (k := fun r _ => r) hask
  · exact fun m' => ⟨m', fun _ => rfl⟩
  · intro r hr
    exact .done (fun _ => K.rel_refl _) hr.1

theorem load_speaks (name : String) : K.scene.Speaks fun o => o.load name :=
  (load_talks K name).speaks

theorem loadClass_talks (name : String) :
    K.scene.Talks (fun _ => True) (fun c => K.loaded name (.ofClass c))
      fun o => o.load.loadClass name := by
  refine (load_talks K name).bind fun l => ?_
  cases l with
  | ofClass c => exact .pure fun _ _ hc => hc
  | ofArray a => exact .fail (K.plain nofun)

theorem loadClass_speaks (name : String) : K.scene.Speaks fun o => o.load.loadClass name :=
  (loadClass_talks K name).speaks

theorem loadArray_talks (name : String) :
    K.scene.Talks (fun _ => True) (fun a => K.loaded name (.ofArray a))
      fun o => o.load.loadArray name := by
  refine (load_talks K name).bind fun l => ?_
  cases l with
  | ofClass c => exact .fail (K.plain nofun)
  | ofArray a => exact .pure fun _ _ ha => ha

theorem newArrayOf_speaks {cls : ArrayClass} (h : K.typed → cls.Honest) (length : Int32) :
    K.scene.Speaks fun _ => newArrayOf cls length := by
  unfold newArrayOf
  refine .ite (fun _ => .fail_bind (K.plain nofun)) fun _ => alloc_speaks K fun ht => ?_
  exact ⟨h ht, rfl, Store.zeroed_sound _ _⟩

theorem newArrayWith_speaks {cls : ArrayClass} {contents : Store}
    (h : K.typed → (Object.ofArray ⟨cls, contents⟩).Typed) :
    K.scene.Speaks fun _ => newArrayWith cls contents := by
  unfold newArrayWith
  refine .ite (fun _ => .fail_bind (K.plain nofun)) fun _ => ?_
  exact .ite (fun _ => .fail_bind (K.plain nofun)) fun _ => alloc_speaks K h

theorem newArray_speaks (name : String) (length : Int32) :
    K.scene.Speaks fun o => newArray o.load name length := by
  refine Talks.bind (loadArray_talks K name) fun cls => .assume fun m _ hcls => ?_
  exact (newArrayOf_speaks K (fun ht => (K.honest hcls ht).1) length).talks

theorem fillArray_speaks {make : Oracle → MachineM Nat} (h : K.scene.Speaks make)
    (address index count : Nat) :
    K.scene.Speaks fun o => fillArray address (make o) index count := by
  induction count generalizing index with
  | zero => exact .pure ()
  | succ count ih =>
      exact h.bind fun _ => (storeElement_speaks K address _ _).bind fun _ => ih (index + 1)

theorem nestedArray_speaks (name : String) (lengths : List Int32) :
    K.scene.Speaks fun o => nestedArray o.load name lengths := by
  induction lengths generalizing name with
  | nil => exact .fail (K.plain nofun)
  | cons length inner ih =>
      refine Talks.bind (loadArray_talks K name) fun cls => .assume fun m _ hcls => ?_
      have hhonest : K.typed → cls.Honest := fun ht => (K.honest hcls ht).1
      apply Speaks.talks
      refine (newArrayOf_speaks K hhonest length).bind fun a => .ite (fun _ => ?_) fun _ => .pure _
      exact (fillArray_speaks K (ih cls.component) a 0 _).bind fun _ => .pure _

theorem newMultiArray_speaks (name : String) (lengths : List Int32) :
    K.scene.Speaks fun o => newMultiArray o.load name lengths := by
  unfold newMultiArray
  cases lengths.find? (· < 0) with
  | some negative => exact .fail (K.plain nofun)
  | none => exact nestedArray_speaks K name lengths

theorem newString_typed {cls : Class} (hcls : cls.Honest) {position : Nat}
    (htype : Descriptor.fieldType ((cls.layout[position]?.map Field.descriptor).getD "") =
      .ok .reference) (contents : Nat) (coding : Option Coding) (units : List UInt16) :
    (putIfPresent
      (match coding with
      | some c =>
          putIfPresent ((Instance.ofClass cls).setValue position (.reference (some contents)))
            "coder" "B" (.int c.code)
      | none => (Instance.ofClass cls).setValue position (.reference (some contents)))
      "hash" "I" (.int (Text.unitHash units))).Typed := by
  have hvalue : ((Instance.ofClass cls).setValue position (.reference (some contents))).Typed := by
    apply (Instance.ofClass_typed hcls).setValue
    intro f hf
    have hlayout : cls.layout[position]? = some f := hf
    rw [hlayout] at htype
    exact ⟨.reference, htype, rfl⟩
  refine putIfPresent_typed ?_ rfl rfl
  cases coding with
  | none => exact hvalue
  | some c => exact putIfPresent_typed hvalue rfl rfl

theorem newString_speaks (text : String) : K.scene.Speaks fun o => newString o.load text := by
  refine Talks.bind (loadClass_talks K stringName) fun cls => .assume fun m _ hcls => ?_
  have hhonest : K.typed → cls.Honest := K.honest hcls
  apply Speaks.talks
  dsimp only
  cases cls.namedPosition? "value" with
  | none => exact .fail (K.plain nofun)
  | some position =>
      refine Talks.bind (Talks.lift (encodeText_fails _ _) K.plain) fun encoded => ?_
      refine .assume fun _ _ hencoded => Speaks.talks ?_
      rcases encodeText_typed hencoded.1 with ⟨htype, hstore⟩
      refine Talks.bind (loadArray_talks K _) fun arrayCls => .assume fun m _ harray => ?_
      apply Speaks.talks
      have htyped : K.typed → (Object.ofArray ⟨arrayCls, encoded.1⟩).Typed := fun ht =>
        hstore arrayCls (K.honest harray ht).1 (K.honest harray ht).2
      refine (newArrayWith_speaks K htyped).bind fun contents => alloc_speaks K fun ht => ?_
      exact newString_typed (hhonest ht) htype contents encoded.2 _

/-!
# Objects that stand for types
-/

theorem newClassObject_talks (name : String) :
    K.scene.Talks (fun _ => True) (fun created m => m.reflected? created = some name)
      fun o => newClassObject o.load name := by
  refine Talks.bind (loadClass_talks K classClassName) fun cls => .assume fun m _ hcls => ?_
  have htyped : K.typed →
      (Object.ofInstance { Instance.ofClass cls with reflects := some name }).Typed := fun ht =>
    Instance.ofClass_typed (K.honest hcls ht)
  exact (alloc_talks K htyped).mono (fun _ _ _ => trivial) fun _ _ _ h => h

theorem occupant_talks {p : TypePlace} (hp : p.Genuine) :
    K.scene.Talks (fun _ => True)
      (fun address m => (m.place? p).isSome → m.place? p = some (some address))
      fun o => occupant o.load p := by
  refine .get_bind fun m _ => ?_
  cases hfound : (m.place? p).join with
  | some address => exact .pure fun s _ hs _ => by rw [hs, Option.join_eq_some_iff.mp hfound]
  | none =>
      refine Talks.bind ((newClassObject_talks K p.name).mono (fun _ _ _ => trivial)
        fun _ _ _ h => h) fun created => .get_bind fun m' hcreated => ?_
      cases hfound' : (m'.place? p).join with
      | some address => exact .pure fun s _ hs _ => by rw [hs, Option.join_eq_some_iff.mp hfound']
      | none =>
          -- no other object came into being meanwhile
          refine Talks.bind (Q := fun _ m => (m.place? p).isSome → m.place? p = some (some created))
            (.of_alike (.modify fun s hinv hs => ?_)) fun _ => .pure fun _ _ h => h
          subst hs
          obtain ⟨hinv', hrel⟩ := K.work hinv (fill_works s created p)
            (fill_upholds hp hfound' hcreated) fun ht =>
              ⟨(K.sound hinv ht).fill created p, Grows.of_eq (fill_objects s created p)⟩
          refine ⟨hinv', hrel, fun hplace => ?_⟩
          simp only [place?_fill hp hfound', if_true, Option.isSome_map] at hplace ⊢
          obtain ⟨content, hcontent⟩ := Option.isSome_iff_exists.mp hplace
          rw [hcontent, Option.map_some]

theorem classObject_speaks (name : String) : K.scene.Speaks fun o => classObject o.load name := by
  simp only [classObject_eq]
  exact (occupant_talks K (p := .ofClass name) trivial).speaks

theorem arrayClassObject_speaks (name : String) :
    K.scene.Speaks fun o => arrayClassObject o.load name := by
  simp only [arrayClassObject_eq]
  exact (occupant_talks K (p := .ofArray name) trivial).speaks

theorem primitiveClassObject_speaks (name : String) :
    K.scene.Speaks fun o => primitiveClassObject o.load name := by
  by_cases hname : name ∈ primitiveTypes
  · simp only [primitiveClassObject_eq _ hname]
    exact (occupant_talks K (p := .ofPrimitive name) hname).speaks
  · have hnot : (!primitiveTypes.contains name) = true := by simp [hname]
    simp only [primitiveClassObject, hnot, if_true]
    exact .fail_bind (K.plain (Fault.plain_unresolved _))

theorem typeObject_speaks (name : String) : K.scene.Speaks fun o => typeObject o.load name := by
  refine .ite (fun _ => primitiveClassObject_speaks K name) fun _ => ?_
  refine (load_speaks K name).bind fun l => ?_
  cases l with
  | ofClass c => exact classObject_speaks K c.name
  | ofArray a => exact arrayClassObject_speaks K a.name

theorem storeTexts_speaks (address : Nat) (texts : List String) (index : Nat) :
    K.scene.Speaks fun o => Native.storeTexts o.load address index texts := by
  induction texts generalizing index with
  | nil => exact .pure ()
  | cons text rest ih =>
      exact (newString_speaks K text).bind fun _ => (storeElement_speaks K address _ _).bind
        fun _ => ih (index + 1)

/-!
# Resolution
-/

theorem resolveClass_talks (p : ClassPool) (index : UInt16) :
    K.scene.Talks (K.knows p) (fun c _ => K.typed → c.Honest)
      fun o => p.resolveClass o.load index := by
  unfold ClassPool.resolveClass
  dsimp only
  split
  · exact .fail_bind (K.plain nofun)
  · refine .get_bind fun m hm => ?_
    cases hcached : m.resolved.lookup (p.owner, index) with
    | some c =>
        apply Talks.pure
        intro s hinv hs ht
        rw [hs] at hinv
        exact (K.sound hinv ht).resolved _ (mem_of_lookup hcached)
    | none =>
        refine .bind (.liftMalformed (p.pool.className_fails index) K.plain) fun name => ?_
        refine .assume fun s _ hs => ?_
        have hload := (loadClass_talks K name).keep (E := K.knows p) K.knows_later
        refine Talks.bind (hload.mono (fun s' _ hs' => ⟨trivial, ?_⟩) fun _ _ _ hq => hq)
          fun c => ?_
        · rw [hs'.2]
          exact hm
        · refine .get_bind fun m' hm' => ?_
          -- the load may have followed the same reference
          cases hcached' : m'.resolved.lookup (p.owner, index) with
          | some first =>
              apply Talks.pure
              intro s' hinv hs' ht
              rw [hs'] at hinv
              exact (K.sound hinv ht).resolved _ (mem_of_lookup hcached')
          | none =>
              refine Talks.bind (Q := fun _ _ => True) (.of_alike (.modify fun s' hinv hs' => ?_))
                fun _ => .pure fun _ _ _ => K.honest hm'.1
              subst hs'
              rcases K.remember hinv hm'.2 hs.1 hm'.1 hcached' with ⟨hinv', hrel⟩
              exact ⟨hinv', hrel, trivial⟩

theorem resolveStatic_talks (p : ClassPool) (index : UInt16) :
    K.scene.Talks (fun _ => True)
      (fun f _ => K.typed → f.Honest ∧
        ∃ member, p.member index = .ok member ∧ f.descriptor = member.descriptor)
      fun o => p.resolveStatic o.load index := by
  refine Talks.bind (.liftMalformed (p.pool.member_fails p.owner index) K.plain) fun member =>
    .assume fun _ _ hmember => ?_
  refine ((loadClass_talks K member.owner).mono (fun _ _ _ => trivial) fun _ _ _ h => h).bind
    fun c => .assume fun m _ hc => ?_
  refine (Talks.lift (c.staticField_fails _ _) K.plain).mono (fun _ _ h => h) ?_
  intro f _ _ hf ht
  obtain ⟨hhonest, hdescriptor⟩ := (K.honest hc ht).staticField hf.1
  exact ⟨hhonest, member, hmember.1, hdescriptor⟩

theorem resolveMethod_speaks (p : ClassPool) (index : UInt16) :
    K.scene.Speaks fun o => p.resolveMethod o.load index := by
  refine (liftMalformed_speaks K (p.pool.member_fails p.owner index)).bind fun member =>
    (loadClass_speaks K _).bind fun c => .ite (fun _ => .fail_bind (K.plain nofun)) fun _ => ?_
  cases c.method? member.name member.descriptor with
  | some method => exact .pure _
  | none => exact .fail (K.plain nofun)

theorem literal_speaks (p : ClassPool) (index : UInt16) :
    K.scene.Speaks fun o => p.literal o.load index := by
  refine (liftMalformed_speaks K (p.pool.get_fails index)).bind fun constant => ?_
  cases constant with
  | integer value => exact .pure _
  | float word => exact .pure _
  | long value => exact .pure _
  | double word => exact .pure _
  | string text =>
      exact (liftMalformed_speaks K (p.pool.utf8_fails _)).bind fun text =>
        (newString_speaks K text).bind fun _ => .pure _
  | classRef name =>
      exact (liftMalformed_speaks K (p.pool.className_fails index)).bind fun name =>
        (typeObject_speaks K name).bind fun _ => .pure _
  | _ => exact .fail (K.plain nofun)

theorem isInstanceOf_speaks (address : Nat) (target : String) :
    K.scene.Speaks fun o => isInstanceOf o.load address target := by
  refine (object_speaks K address).bind fun o => ?_
  cases o with
  | ofArray a => exact .get_bind fun m => .pure _
  | ofInstance i =>
      exact .ite (fun _ => .pure _) fun _ => (loadClass_speaks K target).bind fun t => .pure _

end

end Conduct
end Bytecode
