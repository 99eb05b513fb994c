import Bytecode.Proofs.Contract.Machine
import Mathlib.Data.List.Chain
import Mathlib.Logic.Relation

/-!
# Order in the machine

What the loader keeps in order: which classes are registered and how far they have come, which are
being loaded, and which class references were followed.  Whatever the loader is asked for, it leaves
the standing of registered classes as it was.
-/

namespace Bytecode

/-!
# What class files declare
-/

namespace ClassFile

def HasSupertype (file : ClassFile) (name : String) : Prop :=
  file.superName = some name ∨ name ∈ file.interfaces

/-- The file declares a static initializer, or a constant text that must be made an object. -/
def Initializes (file : ClassFile) : Prop :=
  (∃ m ∈ file.methods, m.name = "<clinit>" ∧ m.descriptor = "()V") ∨
    ∃ f ∈ file.fields, f.access.isStatic ∧ f.access.isFinal ∧
      ∃ index text, f.constantValue? = some index ∧ file.pool.get index = .ok (.string text)

end ClassFile

namespace ClassPath

def Declares (path : ClassPath) (name : String) (file : ClassFile) : Prop :=
  ∃ log bytes, path log name = .ok bytes ∧ ClassFile.read bytes = .ok file ∧ file.name = name

def Supertype (path : ClassPath) (name other : String) : Prop :=
  ∃ file, path.Declares name file ∧ file.HasSupertype other

def Ancestor (path : ClassPath) : String → String → Prop :=
  Relation.TransGen path.Supertype

def Initializes (path : ClassPath) (name : String) : Prop :=
  ∃ file, path.Declares name file ∧ file.Initializes

end ClassPath

theorem mem_of_lookup {α β : Type} [BEq α] [LawfulBEq α] {rows : List (α × β)} {key : α} {value : β}
    (h : rows.lookup key = some value) : (key, value) ∈ rows := by
  rcases List.lookup_eq_some_iff.mp h with ⟨before, after, rfl, -⟩
  simp

namespace Machine

/-!
# Standing of classes
-/

def standing? (m : Machine) (name : String) : Option (Class × ClassState) :=
  (m.registration? name).map fun e => (e.cls, e.state)

theorem standing?_eq_find? (m : Machine) (name : String) :
    m.standing? name = m.standings.find? (·.1.name == name) := by
  simp only [standing?, registration?, standings, List.find?_map]
  rfl

theorem standing?_name {m : Machine} {name : String} {c : Class} {s : ClassState}
    (h : m.standing? name = some (c, s)) : c.name = name := by
  rw [standing?_eq_find?] at h
  simpa using List.find?_some h

theorem standing?_eq_none {m : Machine} {name : String} :
    m.standing? name = none ↔ m.registration? name = none :=
  Option.map_eq_none_iff

theorem exists_entry {m : Machine} {name : String} {c : Class} {s : ClassState}
    (h : m.standing? name = some (c, s)) : ∃ e ∈ m.classes, e.cls = c ∧ e.state = s := by
  rcases Option.map_eq_some_iff.mp h with ⟨e, he, hcs⟩
  cases hcs
  exact ⟨e, List.mem_of_find?_eq_some he, rfl, rfl⟩

theorem isRegistered_eq (m : Machine) (name : String) :
    m.isRegistered name = (m.standing? name).isSome := by
  simp only [isRegistered, standing?, Option.isSome_map]

theorem Works.standing? {m m' : Machine} (h : Works m m') (name : String) :
    m'.standing? name = m.standing? name := by
  rw [standing?_eq_find?, standing?_eq_find?, h.standings]

theorem Works.pool? {m m' : Machine} (h : Works m m') (name : String) :
    m'.pool? name = m.pool? name := by
  unfold Machine.pool?
  rw [h.pools]

def ClassFailed (m : Machine) : Prop :=
  ∃ c, m.standing? classClassName = some (c, .erroneous)

/-- What holds of classes, states and followed references whenever the loader is asked for a type
or has answered. -/
structure Orderly (m : Machine) : Prop where
  names : (m.standings.map fun s => s.1.name).Nodup
  /-- A class that is not initialized yet is being loaded, unless no object could stand for it. -/
  linked : ∀ {name c}, m.standing? name = some (c, .linked) → name ∈ m.loading ∨ m.ClassFailed
  busy : ∀ {name c s}, name ∈ m.loading → m.standing? name = some (c, s) → s = .linked
  pools : ∀ {name pool}, m.pool? name = some pool → ∃ s, m.standing? name = some s
  resolved : ∀ {owner index c}, ((owner, index), c) ∈ m.resolved →
    ∃ pool s, m.pool? owner = some pool ∧ pool.className index = .ok c.name ∧
      m.standing? c.name = some (c, s)

theorem Orderly.empty : Orderly Machine.empty :=
  ⟨List.nodup_nil, nofun, nofun, nofun, nofun⟩

theorem Orderly.pool?_eq_none {m : Machine} (h : Orderly m) {name : String}
    (hnone : m.standing? name = none) : m.pool? name = none := by
  cases hpool : m.pool? name with
  | none => rfl
  | some pool =>
      rcases h.pools hpool with ⟨s, hs⟩
      rw [hnone] at hs
      cases hs

theorem Orderly.works {m m' : Machine} (h : Orderly m) (hw : Works m m') : Orderly m' := by
  have hfailed : m.ClassFailed → m'.ClassFailed := by
    rintro ⟨c, hc⟩
    exact ⟨c, by rw [hw.standing?, hc]⟩
  refine ⟨?_, ?_, ?_, ?_, ?_⟩
  · rw [hw.standings]
    exact h.names
  · intro name c hlinked
    rw [hw.standing?] at hlinked
    rw [hw.loading]
    exact (h.linked hlinked).imp_right hfailed
  · intro name c s hmem hstanding
    rw [hw.loading] at hmem
    rw [hw.standing?] at hstanding
    exact h.busy hmem hstanding
  · intro name pool hpool
    rw [hw.pool?] at hpool
    rw [hw.standing?]
    exact h.pools hpool
  · intro owner index c hmem
    rw [hw.resolved] at hmem
    rw [hw.pool?, hw.standing?]
    exact h.resolved hmem

/-- What a request leaves as it is: the names being loaded, the standing of registered classes and
constant tables.  A class that is being loaded further out is not registered meanwhile. -/
structure Extends (m m' : Machine) : Prop where
  loading : m'.loading = m.loading
  standing : ∀ {name s}, m.standing? name = some s → m'.standing? name = some s
  absent : ∀ {name}, name ∈ m.loading → m.standing? name = none → m'.standing? name = none
  pools : ∀ {name pool}, m.pool? name = some pool → m'.pool? name = some pool

theorem Extends.refl (m : Machine) : Extends m m :=
  ⟨rfl, id, fun _ h => h, id⟩

theorem Extends.trans {a b c : Machine} (h : Extends a b) (h' : Extends b c) : Extends a c := by
  refine ⟨h'.loading.trans h.loading, fun hs => h'.standing (h.standing hs), ?_,
    fun hp => h'.pools (h.pools hp)⟩
  intro name hmem hnone
  refine h'.absent ?_ (h.absent hmem hnone)
  rw [h.loading]
  exact hmem

theorem Works.extends {m m' : Machine} (h : Works m m') : Extends m m' := by
  refine ⟨h.loading, ?_, ?_, ?_⟩
  · intro name s hs
    rw [h.standing?, hs]
  · intro name _ hnone
    rw [h.standing?, hnone]
  · intro name pool hpool
    rw [h.pool?, hpool]

/-!
# Why a class is being loaded
-/

def Started (path : ClassPath) (m : Machine) (name : String) : Prop :=
  (∃ s, m.standing? name = some s) ∧ path.Initializes name

/-- Why the first class may be asked for while the second one is being loaded: the initialization
of the second has begun, or the first is a supertype that it declares. -/
def Cause (path : ClassPath) (m : Machine) (name outer : String) : Prop :=
  m.Started path outer ∨ path.Supertype outer name

def Nested (path : ClassPath) (m : Machine) : Prop :=
  m.loading.IsChain (m.Cause path)

/-- The class was asked for by the last of those being loaded, or is registered anyway. -/
def Justified (path : ClassPath) (m : Machine) (name : String) : Prop :=
  (∃ s, m.standing? name = some s) ∨ (name :: m.loading).IsChain (m.Cause path)

/-- Code is running: nothing is being loaded, or the initialization of the last class has begun. -/
def Open (path : ClassPath) (m : Machine) : Prop :=
  ∀ name ∈ m.loading.head?, m.Started path name

section

variable {path : ClassPath} {m m' : Machine}

theorem Extends.started (h : Extends m m') {name : String} (hs : m.Started path name) :
    m'.Started path name := by
  rcases hs with ⟨⟨s, hs⟩, hinit⟩
  exact ⟨⟨s, h.standing hs⟩, hinit⟩

theorem Extends.chain (h : Extends m m') {names : List String}
    (hchain : names.IsChain (m.Cause path)) : names.IsChain (m'.Cause path) :=
  hchain.imp fun _ _ hcause => hcause.imp_left h.started

theorem Extends.nested (h : Extends m m') (hnested : m.Nested path) : m'.Nested path := by
  unfold Nested
  rw [h.loading]
  exact h.chain hnested

theorem Extends.opens (h : Extends m m') (hopen : m.Open path) : m'.Open path := by
  intro name hhead
  rw [h.loading] at hhead
  exact h.started (hopen name hhead)

theorem Open.justified (hnested : m.Nested path) (hopen : m.Open path) (name : String) :
    m.Justified path name := by
  refine .inr ?_
  unfold Nested at hnested
  cases hloading : m.loading with
  | nil => exact .singleton name
  | cons head rest =>
      rw [hloading] at hnested
      refine List.isChain_cons_cons.mpr ⟨.inl (hopen head ?_), hnested⟩
      rw [hloading]
      rfl

/-- Down a chain of causes from a class that is not registered, each class is an ancestor of it as
far as no initialization intervenes. -/
theorem ancestor_of_chain {name x : String} {names : List String} (hnone : m.standing? name = none)
    (hchain : (x :: names).IsChain (m.Cause path)) (hmem : name ∈ names) :
    path.Ancestor name x ∨ ∃ a ∈ names, path.Ancestor name a ∧ m.Started path a := by
  -- the chain is followed down, one cause at a time
  induction names generalizing x with
  | nil => cases hmem
  | cons b rest ih =>
      rcases List.isChain_cons_cons.mp hchain with ⟨hcause, hrest⟩
      rcases List.mem_cons.mp hmem with rfl | hmem
      · rcases hcause with ⟨⟨s, hs⟩, -⟩ | hsuper
        · rw [hnone] at hs
          cases hs
        · exact .inl (.single hsuper)
      · rcases ih hrest hmem with hb | ⟨a, ha, hanc, hstarted⟩
        · rcases hcause with hstarted | hsuper
          · exact .inr ⟨b, List.mem_cons_self, hb, hstarted⟩
          · exact .inl (hb.tail hsuper)
        · exact .inr ⟨a, List.mem_cons_of_mem b ha, hanc, hstarted⟩

/-- A class that is asked for again before it is registered is its own ancestor, or an ancestor of
it has begun its initialization. -/
theorem Justified.ancestor {name : String} (h : m.Justified path name)
    (hnone : m.standing? name = none) (hmem : name ∈ m.loading) :
    path.Ancestor name name ∨
      ∃ a ∈ m.loading, path.Ancestor name a ∧ m.Started path a := by
  rcases h with ⟨s, hs⟩ | hchain
  · rw [hnone] at hs
    cases hs
  · exact ancestor_of_chain hnone hchain hmem

end

end Machine

/-!
# The contract of the loader
-/

/-- A circularity is explained by a cycle of declared supertypes, or by an ancestor whose
initialization asked for the class. -/
def ClassPath.Explains (path : ClassPath) (name : String) : Prop :=
  path.Ancestor name name ∨ ∃ ancestor, path.Ancestor name ancestor ∧ path.Initializes ancestor

open Machine

def Answers (name : String) (l : Loaded) (m : Machine) : Prop :=
  match l with
  | .ofClass c => ∃ s, m.standing? name = some (c, s) ∧ s ≠ .erroneous
  | .ofArray _ => True

/-- Requests that keep the machine in order.  If `strict`, what is being loaded is accounted for,
and so is every circularity that is reported. -/
def order (path : ClassPath) (strict : Prop) : Contract where
  inv m := m.Orderly ∧ (strict → m.Nested path)
  rel := Extends
  err f := strict → ∀ name, f = .malformed (.circularity name) → path.Explains name
  rel_refl := Extends.refl
  rel_trans := Extends.trans
  loaded := Answers
  work := by
    intro m m' hinv hw
    exact ⟨⟨hinv.1.works hw, fun hstrict => hw.extends.nested (hinv.2 hstrict)⟩, hw.extends⟩
  remember := by
    rintro m p index name c ⟨⟨hnames, hlinked, hbusy, hpools, hresolved⟩, hnested⟩ hpool hname
      ⟨s, hstanding, -⟩ -
    refine ⟨⟨⟨hnames, hlinked, hbusy, hpools, ?_⟩, hnested⟩, rfl, id, fun _ h => h, id⟩
    intro owner index' c' hmem
    rcases List.mem_cons.mp hmem with heq | hmem
    · cases heq
      have hcname : c.name = name := standing?_name hstanding
      rw [hcname]
      exact ⟨p.pool, s, hpool, hname, hstanding⟩
    · exact hresolved hmem
  pools h hpool := h.pools hpool
  plain hplain _ name heq := absurd heq (hplain name)

def Contract.and (C : Contract) (P : Machine → Prop) (hP : ∀ {m m'}, C.rel m m' → P m → P m') :
    Contract where
  inv m := C.inv m ∧ P m
  rel := C.rel
  err := C.err
  rel_refl := C.rel_refl
  rel_trans := C.rel_trans
  loaded := C.loaded
  work := by
    intro m m' hinv hw
    rcases C.work hinv.1 hw with ⟨hinv', hrel⟩
    exact ⟨⟨hinv', hP hrel hinv.2⟩, hrel⟩
  remember := by
    intro m p index name c hinv hpool hname hloaded hnone
    rcases C.remember hinv.1 hpool hname hloaded hnone with ⟨hinv', hrel⟩
    exact ⟨⟨hinv', hP hrel hinv.2⟩, hrel⟩
  pools := C.pools
  plain := C.plain

namespace Contract

variable {α : Type} {C : Contract} {P : Machine → Prop} {Q : α → Machine → Prop}
  {x y : MachineM α} (hP : ∀ {m m'}, C.rel m m' → P m → P m')

theorem and_alike (h : C.Alike P Q x y) : (C.and P hP).Alike (fun _ => True) Q x y := by
  intro m hinv _
  rcases h m hinv.1 hinv.2 with ⟨heq, hends⟩
  refine ⟨heq, hends.restate (fun m' hinv' hrel => ?_) fun _ hf => hf⟩
  exact ⟨⟨hinv', hP hrel hinv.2⟩, hrel⟩

theorem ends_of_and {m : Machine} {outcome : EStateM.Result Halt Machine α}
    (h : (C.and P hP).Ends Q m outcome) : C.Ends Q m outcome :=
  h.restate (fun _ hinv hrel => ⟨hinv.1, hrel⟩) fun _ hf => hf

end Contract

theorem opens_of_strict {path : ClassPath} {strict : Prop} {m m' : Machine} (h : Extends m m')
    (hopen : strict → m.Open path) (hstrict : strict) : m'.Open path :=
  h.opens (hopen hstrict)

def opened (path : ClassPath) (strict : Prop) : Contract :=
  (order path strict).and (fun m => strict → m.Open path) opens_of_strict

def Loads (path : ClassPath) (strict : Prop) (load₁ load₂ : Loader) : Prop :=
  ∀ name, (order path strict).Alike (fun m => strict → m.Justified path name) (Answers name)
    (load₁ name) (load₂ name)

theorem Loads.opened {path : ClassPath} {strict : Prop} {load₁ load₂ : Loader}
    (h : Loads path strict load₁ load₂) : (opened path strict).Loaders load₁ load₂ := by
  intro name
  apply Contract.and_alike opens_of_strict
  refine (h name).mono (fun m hinv hopen hstrict => ?_) fun _ _ _ hq => hq
  exact (hopen hstrict).justified (hinv.2 hstrict) name

end Bytecode
