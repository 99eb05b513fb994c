import Bytecode.Proofs.Loading.Order

/-!
# Definition of classes

A class goes through the same stages whenever it is loaded: its name is marked, its supertypes are
loaded, it is registered, an object is made to stand for it, it is initialized and the mark is
removed.  Each stage keeps the machine in order.
-/

namespace Bytecode

open Machine

variable {path : ClassPath} {strict : Prop} {load₁ load₂ : Loader}

def ClassPath.Plain (path : ClassPath) : Prop :=
  ∀ log name, FailsWith Fault.Plain (path log name)

/-!
# Reading and linking
-/

theorem readClassFile_alike (hpath : strict → path.Plain) (name : String) :
    (order path strict).Alike (fun _ => True) (fun file _ => path.Declares name file)
      (readClassFile path name) (readClassFile path name) := by
  refine .get_bind fun m _ => ?_
  refine .bind (Q := fun bytes _ => path m.log name = .ok bytes) ?_ fun bytes => ?_
  · refine .lift (fun f hf hstrict y heq => ?_) fun bytes s hbytes _ => hbytes
    exact absurd heq (hpath hstrict m.log name f hf y)
  refine .bind (Q := fun file _ => path m.log name = .ok bytes ∧ ClassFile.read bytes = .ok file)
    ?_ fun file => ?_
  · refine .liftMalformed (fun f hf => (order path strict).plain ?_)
      fun file s hfile hbytes => ⟨hbytes, hfile⟩
    exact (ClassFile.read_fails bytes f hf).fault
  dsimp only
  split
  next => exact .fail_bind ((order path strict).plain nofun)
  next hname =>
      refine .pure fun s _ hs => ?_
      exact ⟨m.log, bytes, hs.1, hs.2, not_not.mp hname⟩

/-- A supertype may be asked for while the class that declares it is the last one being loaded. -/
theorem justified_of_supertype {m : Machine} {name outer : String} (hnested : m.Nested path)
    (hhead : m.loading.head? = some outer) (h : path.Supertype outer name) :
    m.Justified path name := by
  rcases List.head?_eq_some_iff.mp hhead with ⟨rest, hloading⟩
  refine .inr ?_
  unfold Nested at hnested
  rw [hloading] at hnested ⊢
  exact List.isChain_cons_cons.mpr ⟨.inr h, hnested⟩

theorem Loads.supertype {name outer : String} (h : Loads path strict load₁ load₂)
    (hsuper : path.Supertype outer name) :
    (order path strict).Alike (fun m => m.loading.head? = some outer)
      (fun _ m => m.loading.head? = some outer) (load₁.loadClass name) (load₂.loadClass name) := by
  have hkeep := (h name).keep (F := fun m => m.loading.head? = some outer) fun hrel hhead => by
    rw [hrel.loading, hhead]
  have hload : (order path strict).Alike (fun m => m.loading.head? = some outer)
      (fun _ m => m.loading.head? = some outer) (load₁ name) (load₂ name) := by
    refine hkeep.mono (fun m hinv hhead => ⟨fun hstrict => ?_, hhead⟩) fun _ _ _ hq => hq.2
    exact justified_of_supertype (hinv.2 hstrict) hhead hsuper
  refine hload.bind fun l => ?_
  cases l with
  | ofClass c => exact .pure fun _ _ hq => hq
  | ofArray a => exact .fail ((order path strict).plain nofun)

theorem link_alike (h : Loads path strict load₁ load₂) {name : String} {file : ClassFile}
    (hfile : path.Declares name file) :
    (order path strict).Alike (fun m => m.loading.head? = some name)
      (fun c _ => Declarations.ofFile file = .ok c.declarations) (link load₁ file)
      (link load₂ file) := by
  refine .bind (Q := fun _ m => m.loading.head? = some name) ?_ fun parent => ?_
  · unfold loadParent
    split
    next superName hsuper =>
        dsimp only
        split
        · exact .fail_bind ((order path strict).plain nofun)
        · refine (h.supertype ⟨file, hfile, .inl hsuper⟩).bind fun parent => ?_
          split
          · exact .fail_bind ((order path strict).plain nofun)
          · exact .pure fun _ _ hs => hs
    next =>
        dsimp only
        split
        · exact .fail_bind ((order path strict).plain nofun)
        · exact .pure fun _ _ hs => hs
  refine (Terms.Alike.mapM fun interfaceName hmem => ?_).bind fun interfaces => ?_
  · refine (h.supertype ⟨file, hfile, .inr hmem⟩).bind fun interface => ?_
    dsimp only
    split
    · exact .fail_bind ((order path strict).plain nofun)
    · exact .pure fun _ _ hs => hs
  refine .bind (Q := fun d _ => Declarations.ofFile file = .ok d) ?_ fun d => ?_
  · exact .liftMalformed
      (fun f hf => (order path strict).plain (Declarations.ofFile_fails file f hf).fault)
      fun _ _ hd _ => hd
  · exact .pure fun _ _ hd => hd

/-!
# Registration
-/

namespace Machine

variable {m m' : Machine} {name : String} {c : Class}

def begin (m : Machine) (name : String) : Machine :=
  { m with loading := name :: m.loading }

def finish (m : Machine) (name : String) : Machine :=
  { m with loading := m.loading.erase name }

def enter (m : Machine) (c : Class) (pool : Pool) : Machine :=
  { m with classes := m.classes ++ [Entry.ofClass c], pools := m.pools ++ [(c.name, pool)] }

@[simp] theorem begin_standing? (n : String) : (m.begin name).standing? n = m.standing? n := rfl

@[simp] theorem finish_standing? (n : String) : (m.finish name).standing? n = m.standing? n := rfl

theorem enter_standings (pool : Pool) :
    (m.enter c pool).standings = m.standings ++ [(c, .linked)] := by
  simp [enter, standings, Entry.ofClass]

theorem enter_standing? (pool : Pool) (hnone : m.standing? c.name = none) (n : String) :
    (m.enter c pool).standing? n = if n = c.name then some (c, .linked) else m.standing? n := by
  rw [standing?_eq_find?] at hnone ⊢
  rw [standing?_eq_find?, enter_standings, List.find?_append]
  by_cases hn : n = c.name
  · subst hn
    simp [hnone]
  · have hne : (c.name == n) = false := by
      simpa using Ne.symm hn
    simp [hn, hne]

theorem enter_standing_kept (pool : Pool) (hnone : m.standing? c.name = none) {n : String}
    {s : Class × ClassState} (hs : m.standing? n = some s) :
    (m.enter c pool).standing? n = some s := by
  have hn : n ≠ c.name := by
    rintro rfl
    rw [hnone] at hs
    cases hs
  rw [enter_standing? pool hnone, if_neg hn, hs]

theorem enter_registration? (pool : Pool) (hnone : m.standing? c.name = none) :
    (m.enter c pool).registration? c.name = some (Entry.ofClass c) := by
  have hfind := standing?_eq_none.mp hnone
  unfold registration? at hfind ⊢
  simp [enter, List.find?_append, hfind, Entry.ofClass]

theorem enter_pool? {pool : Pool} (hnone : m.pool? c.name = none) (n : String) :
    (m.enter c pool).pool? n = if n = c.name then some pool else m.pool? n := by
  unfold pool? at hnone ⊢
  simp only [enter, List.lookup_append]
  by_cases hn : n = c.name
  · subst hn
    simp [hnone]
  · have hne : (n == c.name) = false := by
      simpa using hn
    simp [hn, hne, List.lookup_cons]

theorem enter_pool_kept {pool p : Pool} (hnone : m.pool? c.name = none) {n : String}
    (hp : m.pool? n = some p) : (m.enter c pool).pool? n = some p := by
  have hn : n ≠ c.name := by
    rintro rfl
    rw [hnone] at hp
    cases hp
  rw [enter_pool? hnone, if_neg hn, hp]

theorem register_eq_enter {pool : Pool} (hnone : m.standing? c.name = none)
    (hpool : m.pool? c.name = none) :
    (m.registerPool c.name pool).registerClass c = (true, m.enter c pool) := by
  have hfree (pools : List (String × Pool)) :
      isRegistered { m with pools := pools } c.name = false := by
    rw [isRegistered_eq]
    show (m.standing? c.name).isSome = false
    rw [hnone]
    rfl
  unfold registerPool
  rw [if_neg (by simp [hpool])]
  unfold registerClass
  rw [if_neg (by simp [hfree])]
  rfl

/-!
# Stages of one load

All stages are related to the machine `m` in which the class was asked for.
-/

/-- The class has been registered and not been initialized since it was asked for. -/
structure Registers (m : Machine) (name : String) (c : Class) (m' : Machine) : Prop where
  loading : m'.loading = name :: m.loading
  own : m'.standing? name = some (c, .linked)
  standing : ∀ {n s}, m.standing? n = some s → m'.standing? n = some s
  absent : ∀ {n}, n ∈ m.loading → m.standing? n = none → m'.standing? n = none
  pools : ∀ {n pool}, m.pool? n = some pool → m'.pool? n = some pool

theorem Registers.extends {m'' : Machine} (h : Registers m name c m') (h' : Extends m' m'') :
    Registers m name c m'' := by
  refine ⟨h'.loading.trans h.loading, h'.standing h.own, fun hs => h'.standing (h.standing hs), ?_,
    fun hp => h'.pools (h.pools hp)⟩
  intro n hmem hnone
  refine h'.absent ?_ (h.absent hmem hnone)
  rw [h.loading]
  exact List.mem_cons_of_mem name hmem

theorem Registers.enter {pool : Pool} (h : Extends (m.begin c.name) m')
    (hnone : m'.standing? c.name = none) (hpool : m'.pool? c.name = none)
    (hfree : c.name ∉ m.loading) : Registers m c.name c (m'.enter c pool) := by
  refine ⟨h.loading, ?_, ?_, ?_, ?_⟩
  · rw [enter_standing? pool hnone, if_pos rfl]
  · exact fun hs => enter_standing_kept pool hnone (h.standing hs)
  · intro n hmem hs
    have hn : n ≠ c.name := by
      rintro rfl
      exact hfree hmem
    rw [enter_standing? pool hnone, if_neg hn]
    exact h.absent (List.mem_cons_of_mem _ hmem) hs
  · exact fun hp => enter_pool_kept hpool (h.pools hp)

theorem begin_inv (hinv : (order path strict).inv m) (hnone : m.standing? name = none)
    (hjust : strict → m.Justified path name) : (order path strict).inv (m.begin name) := by
  rcases hinv with ⟨h, -⟩
  refine ⟨⟨h.names, ?_, ?_, h.pools, h.resolved⟩, fun hstrict => ?_⟩
  · intro n c hlinked
    exact (h.linked hlinked).imp_left (List.mem_cons_of_mem name)
  · intro n c s hmem hs
    rcases List.mem_cons.mp hmem with rfl | hmem
    · rw [begin_standing?, hnone] at hs
      cases hs
    · exact h.busy hmem hs
  · rcases hjust hstrict with ⟨s, hs⟩ | hchain
    · rw [hnone] at hs
      cases hs
    · exact hchain

theorem enter_inv {pool : Pool} (hinv : (order path strict).inv m)
    (hnone : m.standing? c.name = none) (hpool : m.pool? c.name = none)
    (hmem : c.name ∈ m.loading) : (order path strict).inv (m.enter c pool) := by
  rcases hinv with ⟨h, hnested⟩
  -- names, linked classes, classes being loaded, tables, followed references, order of the loads
  refine ⟨⟨?_, ?_, ?_, ?_, ?_⟩, fun hstrict => ?_⟩
  · rw [enter_standings, List.map_append, List.nodup_append]
    refine ⟨h.names, List.pairwise_singleton _ _, ?_⟩
    rintro n hn n' hn' rfl
    rcases List.mem_map.mp hn with ⟨s, hs, rfl⟩
    rw [List.map_singleton, List.mem_singleton] at hn'
    rw [standing?_eq_find?, List.find?_eq_none] at hnone
    exact hnone s hs (by simpa using hn')
  · intro n c' hlinked
    rw [enter_standing? pool hnone] at hlinked
    split at hlinked
    next hn =>
        rw [hn]
        exact .inl hmem
    next =>
        refine (h.linked hlinked).imp_right ?_
        rintro ⟨c'', hfailed⟩
        exact ⟨c'', enter_standing_kept pool hnone hfailed⟩
  · intro n c' s hn hs
    rw [enter_standing? pool hnone] at hs
    split at hs
    next =>
        cases hs
        rfl
    next => exact h.busy hn hs
  · intro n p hp
    rw [enter_pool? hpool] at hp
    split at hp
    next hn =>
        refine ⟨(c, .linked), ?_⟩
        rw [enter_standing? pool hnone, if_pos hn]
    next =>
        rcases h.pools hp with ⟨s, hs⟩
        exact ⟨s, enter_standing_kept pool hnone hs⟩
  · intro owner index c' hres
    rcases h.resolved hres with ⟨p, s, hp, hname, hs⟩
    exact ⟨p, s, enter_pool_kept hpool hp, hname, enter_standing_kept pool hnone hs⟩
  · refine (hnested hstrict).imp fun a b hcause => hcause.imp_left ?_
    rintro ⟨⟨s, hs⟩, hinit⟩
    exact ⟨⟨s, enter_standing_kept pool hnone hs⟩, hinit⟩

/-!
# Ends of a load
-/

theorem setState_standings (m : Machine) (name : String) (s : ClassState) :
    (m.setState name s).standings =
      m.standings.map fun p => if p.1.name == name then (p.1, s) else p := by
  simp only [setState, modifyEntry, standings, List.map_map]
  refine List.map_congr_left fun e _ => ?_
  simp only [Function.comp_apply]
  split <;> rfl

theorem setState_standing? (m : Machine) (name : String) (s : ClassState) (n : String) :
    (m.setState name s).standing? n =
      if n = name then (m.standing? n).map fun p => (p.1, s) else m.standing? n := by
  rw [standing?_eq_find?, standing?_eq_find?, setState_standings, List.find?_map]
  have hname : (fun p : Class × ClassState => p.1.name == n) ∘
      (fun p => if p.1.name == name then (p.1, s) else p) = fun p => p.1.name == n := by
    funext p
    simp only [Function.comp_apply]
    split <;> rfl
  rw [hname]
  cases hfind : m.standings.find? (·.1.name == n) with
  | none => simp
  | some p =>
      have hp : p.1.name = n := by
        simpa using List.find?_some hfind
      by_cases hn : n = name
      · simp [hn, hp]
      · simp [hn, hp]

theorem setState_other {n : String} (hn : n ≠ name) (s : ClassState) :
    (m.setState name s).standing? n = m.standing? n := by
  rw [setState_standing?, if_neg hn]

theorem setState_keeps {n : String} {p : Class × ClassState} (hp : m.standing? n = some p)
    (s : ClassState) : ∃ s', (m.setState name s).standing? n = some (p.1, s') := by
  by_cases hn : n = name
  · refine ⟨s, ?_⟩
    rw [setState_standing?, if_pos hn, hp]
    rfl
  · refine ⟨p.2, ?_⟩
    rw [setState_other hn, hp]

theorem setState_names (m : Machine) (name : String) (s : ClassState) :
    (m.setState name s).standings.map (fun p => p.1.name) =
      m.standings.map fun p => p.1.name := by
  rw [setState_standings, List.map_map]
  refine List.map_congr_left fun p _ => ?_
  simp only [Function.comp_apply]
  split <;> rfl

theorem Nested.setState (h : m.Nested path) (s : ClassState) :
    (m.setState name s).Nested path := by
  refine h.imp fun a b hcause => hcause.imp_left ?_
  rintro ⟨⟨p, hp⟩, hinit⟩
  rcases setState_keeps hp s with ⟨s', hs'⟩
  exact ⟨⟨_, hs'⟩, hinit⟩

section

variable (hloading : m'.loading = name :: m.loading)

include hloading

theorem finish_loading : (m'.finish name).loading = m.loading := by
  simp only [finish, hloading, List.erase_cons_head]

theorem Nested.finish (h : m'.Nested path) : (m'.finish name).Nested path := by
  unfold Nested at h ⊢
  rw [hloading] at h
  rw [finish_loading hloading]
  exact h.tail

/-- The classes that are still being loaded when a load has ended were being loaded before. -/
theorem Orderly.busy_of_finish (h : m'.Orderly) {n : String} {c : Class} {s : ClassState}
    (hmem : n ∈ (m'.finish name).loading) (hs : m'.standing? n = some (c, s)) : s = .linked := by
  rw [finish_loading hloading] at hmem
  refine h.busy ?_ hs
  rw [hloading]
  exact List.mem_cons_of_mem name hmem

end

theorem finish_absent (hinv : (order path strict).inv m') (h : Extends (m.begin name) m')
    (hnone : m.standing? name = none) :
    (order path strict).inv (m'.finish name) ∧ Extends m (m'.finish name) := by
  rcases hinv with ⟨horderly, hnested⟩
  have hloading : (m'.finish name).loading = m.loading := finish_loading h.loading
  have hnone' : m'.standing? name = none := h.absent List.mem_cons_self hnone
  refine ⟨⟨⟨horderly.names, ?_, horderly.busy_of_finish h.loading, horderly.pools,
    horderly.resolved⟩, fun hstrict => (hnested hstrict).finish h.loading⟩,
    hloading, h.standing, fun hmem => h.absent (List.mem_cons_of_mem name hmem), h.pools⟩
  intro n c hlinked
  rw [hloading]
  rcases horderly.linked hlinked with hmem | hfailed
  · rw [h.loading] at hmem
    rcases List.mem_cons.mp hmem with rfl | hmem
    · rw [finish_standing?, hnone'] at hlinked
      cases hlinked
    · exact .inl hmem
  · exact .inr hfailed

theorem Registers.finish_linked (h : Registers m name c m') (hinv : (order path strict).inv m')
    (hfailed : m'.ClassFailed) :
    (order path strict).inv (m'.finish name) ∧ Extends m (m'.finish name) := by
  rcases hinv with ⟨horderly, hnested⟩
  constructor
  · exact ⟨⟨horderly.names, fun _ => .inr hfailed, horderly.busy_of_finish h.loading,
      horderly.pools, horderly.resolved⟩, fun hstrict => (hnested hstrict).finish h.loading⟩
  · exact ⟨finish_loading h.loading, h.standing, h.absent, h.pools⟩

section

variable {s : ClassState} (h : Registers m name c m') (hfree : name ∉ m.loading)

include h hfree

theorem Registers.settled_orderly (horderly : m'.Orderly) (hs : s ≠ .linked) :
    ((m'.setState name s).finish name).Orderly := by
  have hloading : ((m'.setState name s).finish name).loading = m.loading :=
    finish_loading h.loading
  -- the class itself is no longer linked, and all others stand as before
  refine ⟨?_, ?_, ?_, ?_, ?_⟩
  · show ((m'.setState name s).standings.map fun p => p.1.name).Nodup
    rw [setState_names]
    exact horderly.names
  · intro n c' hlinked
    have hn : n ≠ name := by
      rintro rfl
      rw [finish_standing?, setState_standing?, if_pos rfl, h.own] at hlinked
      cases hlinked
      exact hs rfl
    rw [finish_standing?, setState_other hn] at hlinked
    rw [hloading]
    rcases horderly.linked hlinked with hmem | ⟨c'', hfailed⟩
    · rw [h.loading] at hmem
      exact .inl ((List.mem_cons.mp hmem).resolve_left hn)
    · have hclass : classClassName ≠ name := by
        intro heq
        rw [heq, h.own] at hfailed
        cases hfailed
      exact .inr ⟨c'', (setState_other hclass s).trans hfailed⟩
  · intro n c' s' hmem hstanding
    have hn : n ≠ name := by
      rintro rfl
      rw [hloading] at hmem
      exact hfree hmem
    rw [finish_standing?, setState_other hn] at hstanding
    exact horderly.busy_of_finish h.loading hmem hstanding
  · intro n pool hpool
    rcases horderly.pools hpool with ⟨p, hp⟩
    rcases setState_keeps hp s with ⟨s', hs'⟩
    exact ⟨_, hs'⟩
  · intro owner index c' hres
    rcases horderly.resolved hres with ⟨pool, s', hpool, hname, hstanding⟩
    rcases setState_keeps hstanding s with ⟨s'', hs''⟩
    exact ⟨pool, s'', hpool, hname, hs''⟩

theorem Registers.settled_extends (hnone : m.standing? name = none) :
    Extends m ((m'.setState name s).finish name) := by
  refine ⟨finish_loading h.loading, ?_, ?_, h.pools⟩
  · intro n p hp
    have hn : n ≠ name := by
      rintro rfl
      rw [hnone] at hp
      cases hp
    exact (setState_other hn s).trans (h.standing hp)
  · intro n hmem habsent
    have hn : n ≠ name := by
      rintro rfl
      exact hfree hmem
    exact (setState_other hn s).trans (h.absent hmem habsent)

theorem Registers.finish_settled (hinv : (order path strict).inv m')
    (hnone : m.standing? name = none) (hs : s ≠ .linked) :
    (order path strict).inv ((m'.setState name s).finish name) ∧
      Extends m ((m'.setState name s).finish name) ∧
        ((m'.setState name s).finish name).standing? name = some (c, s) := by
  rcases hinv with ⟨horderly, hnested⟩
  refine ⟨⟨h.settled_orderly hfree horderly hs, fun hstrict => ?_⟩,
    h.settled_extends hfree hnone, ?_⟩
  · exact Nested.finish h.loading ((hnested hstrict).setState s)
  · rw [finish_standing?, setState_standing?, if_pos rfl, h.own]
    rfl

end

end Machine

end Bytecode
