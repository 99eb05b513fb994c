import Bytecode.Proofs.Loading.Initialize

/-!
# Loads

One load keeps the machine in order if the loads that arise on the way do, and two loads that
nothing tells apart on the way have the same outcome.
-/

namespace Bytecode

open Machine

variable {path : ClassPath} {strict : Prop} {load load₁ load₂ : Loader}
  {invoke invoke₁ invoke₂ : Method → MachineM Unit} {name : String} {m m' : Machine} {c : Class}

/-!
# After registration
-/

/-- What remains to be done for a class that has just been registered. -/
def settle (load : Loader) (invoke : Method → MachineM Unit) (c : Class) : MachineM Class := do
  if (← get).isRegistered classClassName then
    let _ ← classObject load c.name
  enterInitialized load invoke c
  return c

/-- A class whose file is read and whose supertypes are loaded is registered and settled. -/
theorem define_eq_settle {file : ClassFile} {m₁ m₂ : Machine}
    (hread : readClassFile path c.name m = .ok file m₁) (hlink : link load file m₁ = .ok c m₂)
    (hnone : m₂.standing? c.name = none) (hpool : m₂.pool? c.name = none) :
    define path load invoke c.name m = settle load invoke c (m₂.enter c file.pool) := by
  unfold define
  rw [bind_of_ok hread, bind_of_ok hlink, modify_bind, modifyGet_bind,
    register_eq_enter hnone hpool]
  rfl

theorem settle_classObject {p : Class × ClassState} (h : m.standing? classClassName = some p) :
    settle load invoke c m =
      (do let _ ← classObject load c.name
          enterInitialized load invoke c
          return c : MachineM Class) m := by
  unfold settle
  rw [get_bind, isRegistered_eq, h]
  rfl

theorem settle_without (h : m.standing? classClassName = none) :
    settle load invoke c m =
      (do enterInitialized load invoke c
          return c : MachineM Class) m := by
  unfold settle
  rw [get_bind, isRegistered_eq, h]
  rfl

def Runs (path : ClassPath) (strict : Prop) (invoke₁ invoke₂ : Method → MachineM Unit) : Prop :=
  ∀ method, (opened path strict).Same (invoke₁ method) (invoke₂ method)

structure Entered (path : ClassPath) (strict : Prop) (m : Machine) (c : Class) (m' : Machine) :
    Prop where
  file : ∃ file, path.Declares c.name file ∧ Declarations.ofFile file = .ok c.declarations ∧
    m'.pool? c.name = some file.pool
  inv : (order path strict).inv m'
  registers : Registers m c.name c m'
  absent : m.standing? c.name = none
  free : c.name ∉ m.loading

theorem Entered.works {m'' : Machine} (h : Entered path strict m c m') (hw : Works m' m'') :
    Entered path strict m c m'' := by
  rcases h.file with ⟨file, hfile, hdecl, hpool⟩
  rcases (order path strict).work h.inv hw with ⟨hinv, hext⟩
  exact ⟨⟨file, hfile, hdecl, hext.pools hpool⟩, hinv, h.registers.extends hext, h.absent, h.free⟩

theorem runInitializer_entered (hload : Loads path strict load₁ load₂)
    (hinvoke : Runs path strict invoke₁ invoke₂) (h : Entered path strict m c m') :
    runInitializer load₁ invoke₁ c m' = runInitializer load₂ invoke₂ c m' ∧
      (order path strict).Ends (fun _ _ => True) m' (runInitializer load₁ invoke₁ c m') := by
  rcases h.file with ⟨file, hfile, hdecl, hpool⟩
  by_cases hinit : c.Initializes file.pool
  · have hopen : strict → m'.Open path := by
      intro _ n hn
      rw [h.registers.loading] at hn
      cases hn
      exact ⟨⟨_, h.registers.own⟩, file, hfile, hinit.file hdecl⟩
    rcases runInitializer_alike (C := (opened path strict).charter)
      (fun _ => ⟨hload.opened, fun method => (hinvoke method).alike⟩) m' ⟨h.inv, hopen⟩
      ⟨hpool, False.elim⟩ with ⟨heq, hends⟩
    exact ⟨heq, Contract.ends_of_and opens_of_strict hends⟩
  · exact runInitializer_alike (C := (order path strict).charter) (fun hc => absurd hc hinit) m'
      h.inv ⟨hpool, False.elim⟩

theorem enterInitialized_alike (hload : Loads path strict load₁ load₂)
    (hinvoke : Runs path strict invoke₁ invoke₂) (h : Entered path strict m c m') :
    enterInitialized load₁ invoke₁ c m' = enterInitialized load₂ invoke₂ c m' ∧
      (order path strict).Ends (fun _ m'' => m''.standing? c.name = some (c, .initialized)) m
        (always (enterInitialized load₁ invoke₁ c) (·.finish c.name) m') := by
  rcases runInitializer_entered hload hinvoke h with ⟨heq, hends⟩
  refine ⟨by simp only [enterInitialized, heq], ?_⟩
  unfold always enterInitialized
  cases hrun : runInitializer load₁ invoke₁ c m' with
  | ok a m'' =>
      rw [hrun] at hends
      exact (h.registers.extends hends.2.1).finish_settled h.free hends.1 h.absent nofun
  | error e m'' =>
      rw [hrun] at hends
      cases e with
      | outOfFuel => trivial
      | fault f =>
          have hregisters := h.registers.extends hends.2.1
          rcases hregisters.finish_settled (s := .erroneous) h.free hends.1 h.absent nofun with
            ⟨hinv, hext, -⟩
          exact ⟨hinv, hext, hends.2.2⟩

theorem always_bind_pure {T : Terms Machine} {Q : Class → Machine → Prop} {x : MachineM Unit}
    {after : Machine → Machine} {s : Machine}
    (h : T.Ends (fun _ => Q c) s (always x after m)) :
    T.Ends Q s (always (x >>= fun _ => pure c) after m) := by
  unfold always at h ⊢
  cases hx : x m with
  | ok a m' =>
      rw [hx] at h
      rw [bind_of_ok hx]
      exact h
  | error e m' =>
      rw [hx] at h
      rw [bind_of_error hx]
      cases e with
      | fault f => exact h
      | outOfFuel => trivial

theorem settle_of_classFailed (hprompt : Prompt load) (h : m.ClassFailed)
    (hunmade : m.registration? c.name >>= Entry.classObject = none) :
    settle load invoke c m = .error .outOfFuel m ∨
      settle load invoke c m =
        .error (.fault (.illegal (.failedEarlier classClassName))) m := by
  rcases h with ⟨cls, hcls⟩
  rw [settle_classObject hcls]
  rcases classObject_prompt hprompt hcls c.name with hout | ⟨-, hout⟩ | ⟨a, m', -, -, hs⟩
  · exact .inl (bind_of_error hout)
  · exact .inr (bind_of_error hout)
  · exact absurd rfl (hs hunmade)

theorem settle_alike (hload : Loads path strict load₁ load₂) (hprompt : Prompt load₁)
    (hinvoke : Runs path strict invoke₁ invoke₂) (h : Entered path strict m c m') :
    settle load₁ invoke₁ c m' = settle load₂ invoke₂ c m' ∧
      (order path strict).Ends (fun c' m'' => m''.standing? c.name = some (c', .initialized)) m
        (always (settle load₁ invoke₁ c) (·.finish c.name) m') := by
  cases hclass : m'.standing? classClassName with
  | none =>
      rcases enterInitialized_alike hload hinvoke h with ⟨heq, hends⟩
      constructor
      · rw [settle_without hclass, settle_without hclass]
        exact bind_congr_at _ heq
      · unfold always
        rw [settle_without hclass]
        exact always_bind_pure hends
  | some p =>
      have hobject := classObject_congr
        (hload classClassName m' h.inv fun _ => .inl ⟨p, hclass⟩).1 c.name
      rw [settle_classObject hclass, settle_classObject hclass]
      unfold always
      rw [settle_classObject hclass]
      rcases classObject_prompt hprompt hclass c.name with hout | ⟨hfailed, hout⟩ |
        ⟨a, m'', hout, hw, -⟩
      · rw [bind_of_error hout, bind_of_error (hobject.symm.trans hout)]
        exact ⟨rfl, trivial⟩
      · rw [bind_of_error hout, bind_of_error (hobject.symm.trans hout)]
        refine ⟨rfl, ?_⟩
        obtain ⟨hinv, hext⟩ := h.registers.finish_linked h.inv ⟨p.1, by rw [hclass, ← hfailed]⟩
        exact ⟨hinv, hext, (order path strict).plain nofun⟩
      · rw [bind_of_ok hout, bind_of_ok (hobject.symm.trans hout)]
        rcases enterInitialized_alike hload hinvoke (h.works hw) with ⟨heq, hends⟩
        exact ⟨bind_congr_at _ heq, always_bind_pure hends⟩

/-!
# Whole loads
-/

theorem ClassPath.Declares.name_eq {file : ClassFile} (hfile : path.Declares name file)
    (hdecl : Declarations.ofFile file = .ok c.declarations) : c.name = name := by
  rcases Declarations.ofFile_eq_ok hdecl with ⟨fields, methods, -, -, hd⟩
  rcases hfile with ⟨log, bytes, -, -, hfilename⟩
  rw [Class.name, hd, ← hfilename]

/-- The definition of a class ends early, or its class is registered and settled. -/
theorem define_cases (invoke₁ invoke₂ : Method → MachineM Unit) (hpath : strict → path.Plain)
    (hload : Loads path strict load₁ load₂) (hinv : (order path strict).inv m)
    (hjust : strict → m.Justified path name)
    (hnone : m.standing? name = none) (hfree : name ∉ m.loading) :
    (∃ e m', define path load₁ invoke₁ name (m.begin name) = .error e m' ∧
        define path load₂ invoke₂ name (m.begin name) = .error e m' ∧
          ∀ f, e = .fault f → (order path strict).inv m' ∧ Extends (m.begin name) m' ∧
            (order path strict).err f) ∨
      ∃ c m', c.name = name ∧ Entered path strict m c m' ∧
        m'.registration? c.name >>= Entry.classObject = none ∧
        define path load₁ invoke₁ name (m.begin name) = settle load₁ invoke₁ c m' ∧
          define path load₂ invoke₂ name (m.begin name) = settle load₂ invoke₂ c m' := by
  have hbegin := begin_inv hinv hnone hjust
  rcases readClassFile_alike hpath name (m.begin name) hbegin trivial with ⟨-, hreads⟩
  cases hread : readClassFile path name (m.begin name) with
  | error e m₁ =>
      rw [hread] at hreads
      refine .inl ⟨e, m₁, bind_of_error hread, bind_of_error hread, ?_⟩
      rintro f rfl
      exact hreads
  | ok file m₁ =>
      rw [hread] at hreads
      rcases hreads with ⟨hinv₁, hext₁, hfile⟩
      -- the class is the last one being loaded, so its supertypes may be asked for
      have hhead : m₁.loading.head? = some name := by
        rw [hext₁.loading]
        rfl
      rcases link_alike hload hfile m₁ hinv₁ hhead with ⟨heq, hlinks⟩
      cases hlink : link load₁ file m₁ with
      | error e m₂ =>
          rw [hlink] at hlinks
          refine .inl ⟨e, m₂, ?_, ?_, ?_⟩
          · exact (bind_of_ok hread).trans (bind_of_error hlink)
          · exact (bind_of_ok hread).trans (bind_of_error (heq.symm.trans hlink))
          · rintro f rfl
            exact ⟨hlinks.1, hext₁.trans hlinks.2.1, hlinks.2.2⟩
      | ok c m₂ =>
          rw [hlink] at hlinks
          rcases hlinks with ⟨hinv₂, hext₂, hdecl⟩
          have hext := hext₁.trans hext₂
          have hname : c.name = name := hfile.name_eq hdecl
          subst hname
          -- loads on the way have registered other classes, but not this one
          have hnone₂ : m₂.standing? c.name = none := hext.absent List.mem_cons_self hnone
          have hpool₂ : m₂.pool? c.name = none := hinv₂.1.pool?_eq_none hnone₂
          have hmem : c.name ∈ m₂.loading := by
            rw [hext.loading]
            exact List.mem_cons_self
          refine .inr ⟨c, m₂.enter c file.pool, rfl,
            ⟨⟨file, hfile, hdecl, ?_⟩, ?_, ?_, hnone, hfree⟩, ?_,
            define_eq_settle hread hlink hnone₂ hpool₂,
            define_eq_settle hread (heq.symm.trans hlink) hnone₂ hpool₂⟩
          · rw [enter_pool? hpool₂, if_pos rfl]
          · exact enter_inv hinv₂ hnone₂ hpool₂ hmem
          · exact Registers.enter hext hnone₂ hpool₂ hfree
          · rw [enter_registration? file.pool hnone₂]
            rfl

theorem define_alike (hpath : strict → path.Plain) (hload : Loads path strict load₁ load₂)
    (hprompt : Prompt load₁) (hinvoke : Runs path strict invoke₁ invoke₂)
    (hinv : (order path strict).inv m) (hjust : strict → m.Justified path name)
    (hnone : m.standing? name = none) (hfree : name ∉ m.loading) :
    define path load₁ invoke₁ name (m.begin name) = define path load₂ invoke₂ name (m.begin name) ∧
      (order path strict).Ends (fun c m' => m'.standing? name = some (c, .initialized)) m
        (always (define path load₁ invoke₁ name) (·.finish name) (m.begin name)) := by
  unfold always
  rcases define_cases invoke₁ invoke₂ hpath hload hinv hjust hnone hfree with
    ⟨e, m', heq₁, heq₂, hend⟩ | ⟨c, m', rfl, hentered, -, heq₁, heq₂⟩
  · rw [heq₁, heq₂]
    refine ⟨rfl, ?_⟩
    cases e with
    | outOfFuel => trivial
    | fault f =>
        rcases hend f rfl with ⟨hinv', hext, herr⟩
        rcases finish_absent hinv' hext hnone with ⟨hfinish, hext'⟩
        exact ⟨hfinish, hext', herr⟩
  · rw [heq₁, heq₂]
    exact settle_alike hload hprompt hinvoke hentered

theorem loadWith_array (harray : Descriptor.isArray name = true) :
    loadWith path load invoke name = (do return .ofArray (← arrayClass name)) := by
  unfold loadWith
  simp only [harray, if_true]

theorem loadWith_circular (harray : Descriptor.isArray name = false)
    (hnone : m.standing? name = none) (hmem : name ∈ m.loading) :
    loadWith path load invoke name m = .error (.fault (.malformed (.circularity name))) m := by
  unfold loadWith
  have hcontains : m.loading.contains name = true := List.contains_iff_mem.mpr hmem
  simp only [harray, Bool.false_eq_true, if_false, get_bind, standing?_eq_none.mp hnone, hcontains,
    if_true]
  rfl

theorem loadWith_fresh (harray : Descriptor.isArray name = false)
    (hnone : m.standing? name = none) (hfree : name ∉ m.loading) :
    loadWith path load invoke name m =
      match define path load invoke name (m.begin name) with
      | .ok c m' => .ok (.ofClass c) (m'.finish name)
      | .error e m' => .error e (m'.finish name) := by
  unfold loadWith
  have hcontains : m.loading.contains name = false := by
    simpa using hfree
  simp only [harray, Bool.false_eq_true, if_false, get_bind, standing?_eq_none.mp hnone, hcontains]
  rw [modify_bind]
  cases hdefine : define path load invoke name (m.begin name) with
  | ok c m' =>
      have halways : always (define path load invoke name) (·.finish name) (m.begin name) =
          .ok c (m'.finish name) := by
        simp only [always, hdefine]
      exact bind_of_ok halways
  | error e m' =>
      have halways : always (define path load invoke name) (·.finish name) (m.begin name) =
          .error e (m'.finish name) := by
        simp only [always, hdefine]
      exact bind_of_error halways

/-- One load keeps the machine in order if the requests that arise on the way do. -/
theorem loadWith_loads (hpath : strict → path.Plain) (hload : Loads path strict load₁ load₂)
    (hprompt : Prompt load₁) (hinvoke : Runs path strict invoke₁ invoke₂) :
    Loads path strict (loadWith path load₁ invoke₁) (loadWith path load₂ invoke₂) := by
  intro name
  cases harray : Descriptor.isArray name with
  | true =>
      rw [loadWith_array harray, loadWith_array harray]
      have hsame := Charter.arrayClass_same (C := (order path strict).charter) id name
      exact hsame.alike.bind fun a => .pure fun _ _ _ => trivial
  | false =>
      intro m hinv hjust
      cases hstanding : m.standing? name with
      | some p =>
          rw [loadWith_registered harray hstanding, loadWith_registered harray hstanding]
          refine ⟨rfl, ?_⟩
          split
          next => exact ⟨hinv, Extends.refl m, (order path strict).plain nofun⟩
          next hs => exact ⟨hinv, Extends.refl m, p.2, hstanding, hs⟩
      | none =>
          by_cases hmem : name ∈ m.loading
          · rw [loadWith_circular harray hstanding hmem, loadWith_circular harray hstanding hmem]
            refine ⟨rfl, hinv, Extends.refl m, fun hstrict y heq => ?_⟩
            cases heq
            -- the class is its own ancestor, or an ancestor of it has begun its initialization
            refine ((hjust hstrict).ancestor hstanding hmem).imp_right ?_
            rintro ⟨a, -, hanc, -, hinit⟩
            exact ⟨a, hanc, hinit⟩
          · rcases define_alike hpath hload hprompt hinvoke hinv hjust hstanding hmem with
              ⟨heq, hends⟩
            rw [loadWith_fresh harray hstanding hmem, loadWith_fresh harray hstanding hmem, ← heq]
            refine ⟨rfl, ?_⟩
            unfold always at hends
            cases hdefine : define path load₁ invoke₁ name (m.begin name) with
            | ok c m' =>
                rw [hdefine] at hends
                exact ⟨hends.1, hends.2.1, .initialized, hends.2.2, nofun⟩
            | error e m' =>
                rw [hdefine] at hends
                cases e with
                | fault f => exact hends
                | outOfFuel => trivial

end Bytecode
