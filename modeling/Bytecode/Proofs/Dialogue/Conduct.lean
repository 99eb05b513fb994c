import Bytecode.Proofs.Dialogue.Basic
import Bytecode.Proofs.Heap.Typing
import Bytecode.Proofs.TypeObjects.Places

/-!
# Conduct of requests

A conduct says what holds of the machine whenever a request asks for something or ends, and how the
machine is related to the one before.  Requests keep to it whatever their surroundings are, as long
as these keep to it too.  If the conduct is typed, the heap is typed all the time.
-/

namespace Bytecode

open Machine

variable {σ τ α β : Type}

/-- A class whose fields are honest, or the array class of the name. -/
def Loaded.Honest (name : String) : Loaded → Prop
  | ofClass c => c.Honest
  | ofArray a => a.Honest ∧ a.name = name

/-- The answer to a request for a registered class is known. -/
def Machine.Prompts (m : Machine) (name : String) (r : EStateM.Result Halt Machine Loaded) : Prop :=
  ∀ {c s}, Descriptor.isArray name = false → m.standing? name = some (c, s) →
    Stops r ∨ r =
      if s = .erroneous then .error (.fault (.illegal (.failedEarlier name))) m
      else .ok (.ofClass c) m

theorem Terms.Ends.rel {T : Terms σ} {Q : α → σ → Prop} {s : σ} {r : EStateM.Result Halt σ α}
    (h : T.Ends Q s r) (hr : ¬ Stops r) : T.rel s (lastState r) := by
  cases r with
  | ok a s' => exact h.2.1
  | error e s' =>
      cases e with
      | fault f => exact h.2.1
      | outOfFuel => exact absurd trivial hr

theorem Terms.Ends.inv {T : Terms σ} {Q : α → σ → Prop} {s : σ} {r : EStateM.Result Halt σ α}
    (h : T.Ends Q s r) (hr : ¬ Stops r) : T.inv (lastState r) := by
  cases r with
  | ok a s' => exact h.1
  | error e s' =>
      cases e with
      | fault f => exact h.1
      | outOfFuel => exact absurd trivial hr

structure Conduct extends Terms Machine where
  /-- The heap is typed. -/
  typed : Prop
  /-- What is known of an answer of the loader. -/
  loaded : String → Loaded → Machine → Prop
  /-- Requests may ask for methods to be run. -/
  runs : Prop
  /-- The loader answers for a registered class at once. -/
  prompt : Prop
  /-- What is known of the constant table that a frame refers to. -/
  knows : ClassPool → Machine → Prop
  sound : ∀ {m}, inv m → typed → m.Sound
  names : ∀ {m : Machine}, inv m → typed → (m.classes.map fun e => e.cls.name).Nodup
  honest : ∀ {name l m}, loaded name l m → typed → l.Honest name
  /-- Ordinary work that upholds the objects of types and keeps the heap typed. -/
  work : ∀ {m m'}, inv m → Works m m' → m.Upholds m' → (typed → m'.Sound ∧ Grows m m') →
    inv m' ∧ rel m m'
  /-- A class that the loader gave for a class reference may be remembered. -/
  remember : ∀ {m : Machine} {p : ClassPool} {index name c},
    inv m → knows p m → p.className index = .ok name →
      loaded name (.ofClass c) m → m.resolved.lookup (p.owner, index) = none →
        inv { m with resolved := ((p.owner, index), c) :: m.resolved } ∧
          rel m { m with resolved := ((p.owner, index), c) :: m.resolved }
  knows_registered : ∀ {p m}, Contract.Known p m → knows p m
  knows_later : ∀ {p m m'}, rel m m' → knows p m → knows p m'
  plain : ∀ {f : Fault}, f.Plain → err f

namespace Conduct

variable {K : Conduct}

/-- What a request can rely on when it is answered. -/
def Serves (K : Conduct) : (q : Query) → Machine → EStateM.Result Halt Machine q.Reply → Prop
  | .load name, m, r => K.Ends (K.loaded name) m r ∧ (K.prompt → m.Prompts name r)
  | .run _ _, m, r => K.Ends (fun _ _ => True) m r

def manner (K : Conduct) : Manner where
  asks last q m := K.inv m ∧ K.rel last.machine m ∧ (q.IsRun → K.runs)
  ends last m := K.rel last.machine m
  serves := K.Serves

theorem Serves.rel {q : Query} {m : Machine} {r : EStateM.Result Halt Machine q.Reply}
    (h : K.Serves q m r) (hr : ¬ Stops r) : K.rel m (lastState r) := by
  cases q with
  | load name => exact h.1.rel hr
  | run method arguments => exact Terms.Ends.rel h hr

theorem Serves.inv {q : Query} {m : Machine} {r : EStateM.Result Halt Machine q.Reply}
    (h : K.Serves q m r) (hr : ¬ Stops r) : K.inv (lastState r) := by
  cases q with
  | load name => exact h.1.inv hr
  | run method arguments => exact Terms.Ends.inv h hr

theorem manner_chains (K : Conduct) : K.manner.Chains where
  asks hask hserves hr hnext :=
    ⟨hnext.1, K.rel_trans hask.2.1 (K.rel_trans (Serves.rel hserves hr) hnext.2.1), hnext.2.2⟩
  ends hask hserves hr hnext := K.rel_trans hask.2.1 (K.rel_trans (Serves.rel hserves hr) hnext)

end Conduct

theorem Dialogue.earlier {K : Conduct} {view : σ → Machine} {F : EStateM.Result Halt σ α → Prop}
    {m : Machine} {last : Moment} {x : Oracle → EStateM.Result Halt σ α}
    (h : Dialogue K.manner view F (.begun m) x) (hrel : K.rel last.machine m) :
    Dialogue K.manner view F last x :=
  h.recast (fun hask => ⟨hask.1, K.rel_trans hrel hask.2.1, hask.2.2⟩)
    (fun hend => K.rel_trans hrel hend) (fun _ hask => hask) (fun _ hend => hend)
    fun _ hserves => hserves

/-!
# Scenes

Requests work on the machine alone, or on a part of a thread with the machine in it.
-/

/-- Terms for states that hold a machine. -/
structure Scene (K : Conduct) (σ : Type) extends Terms σ where
  machine : σ → Machine
  machine_inv : ∀ {s}, inv s → K.inv (machine s)
  machine_rel : ∀ {s s'}, rel s s' → K.rel (machine s) (machine s')

namespace Scene

variable {K : Conduct} {S : Scene K σ} {U : Scene K τ}

/-- From every state that satisfies `P`, the request is a dialogue that keeps the terms. -/
def Talks (S : Scene K σ) (P : σ → Prop) (Q : α → σ → Prop) (x : Oracle → EStateM Halt σ α) :
    Prop :=
  ∀ s, S.inv s → P s →
    Dialogue K.manner S.machine (S.Ends Q s) (.begun (S.machine s)) fun o => x o s

/-- A dialogue from every state, with nothing more to say about its answer. -/
def Speaks (S : Scene K σ) (x : Oracle → EStateM Halt σ α) : Prop :=
  S.Talks (fun _ => True) (fun _ _ => True) x

theorem machine_of_ends {Q : α → σ → Prop} {s : σ} {r : EStateM.Result Halt σ α}
    (h : S.Ends Q s r) (hr : ¬ Stops r) : K.rel (S.machine s) (S.machine (lastState r)) :=
  S.machine_rel (h.rel hr)

theorem Talks.of_ends {P : σ → Prop} {Q : α → σ → Prop} {x : EStateM Halt σ α}
    (h : ∀ s, S.inv s → P s → S.Ends Q s (x s)) : S.Talks P Q fun _ => x :=
  fun s hinv hs => .done (machine_of_ends (h s hinv hs)) (h s hinv hs)

theorem Talks.of_alike {P : σ → Prop} {Q : α → σ → Prop} {x y : EStateM Halt σ α}
    (h : S.Alike P Q x y) : S.Talks P Q fun _ => x :=
  .of_ends fun s hinv hs => (h s hinv hs).2

theorem Speaks.of_same {x y : EStateM Halt σ α} (h : S.Same x y) : S.Speaks fun _ => x :=
  Talks.of_alike h

theorem Talks.mono {P P' : σ → Prop} {Q Q' : α → σ → Prop} {x : Oracle → EStateM Halt σ α}
    (h : S.Talks P Q x) (hP : ∀ s, S.inv s → P' s → P s)
    (hQ : ∀ a s, S.inv s → Q a s → Q' a s) : S.Talks P' Q' x := by
  intro s hinv hs
  apply (h s hinv (hP s hinv hs)).mono
  intro r hr
  exact hr.mono fun a s' hinv' _ hq => hQ a s' hinv' hq

theorem Speaks.talks {P : σ → Prop} {x : Oracle → EStateM Halt σ α} (h : S.Speaks x) :
    S.Talks P (fun _ _ => True) x :=
  h.mono (fun _ _ _ => trivial) fun _ _ _ _ => trivial

theorem Talks.speaks {Q : α → σ → Prop} {x : Oracle → EStateM Halt σ α}
    (h : S.Talks (fun _ => True) Q x) : S.Speaks x :=
  h.mono (fun _ _ _ => trivial) fun _ _ _ _ => trivial

theorem Talks.keep {P E : σ → Prop} {Q : α → σ → Prop} {x : Oracle → EStateM Halt σ α}
    (h : S.Talks P Q x) (hE : ∀ {s s'}, S.rel s s' → E s → E s') :
    S.Talks (fun s => P s ∧ E s) (fun a s => Q a s ∧ E s) x := by
  intro s hinv hs
  apply (h s hinv hs.1).mono
  intro r hr
  exact hr.mono fun a s' _ hrel hq => ⟨hq, hE hrel hs.2⟩

def andThen (f : α → EStateM Halt σ β) : EStateM.Result Halt σ α → EStateM.Result Halt σ β
  | .ok a s => f a s
  | .error e s => .error e s

theorem bind_eq_andThen (x : EStateM Halt σ α) (f : α → EStateM Halt σ β) (s : σ) :
    (x >>= f) s = andThen f (x s) := by
  cases hx : x s with
  | ok a s' => exact bind_of_ok hx
  | error e s' => exact bind_of_error hx

theorem Talks.finish {P : σ → Prop} {Q : α → σ → Prop} {R : β → σ → Prop}
    {x : Oracle → EStateM Halt σ α} {y : Oracle → EStateM Halt σ β} (h : S.Talks P Q x)
    (k : EStateM.Result Halt σ α → EStateM.Result Halt σ β) (hy : ∀ o s, y o s = k (x o s))
    (hstop : ∀ s, ∃ s', k (.error .outOfFuel s) = .error .outOfFuel s')
    (hk : ∀ s r, ¬ Stops r → S.Ends Q s r → S.Ends R s (k r) ∧
      K.rel (S.machine (lastState r)) (S.machine (lastState (k r)))) : S.Talks P R y := by
  intro s hinv hs
  simp only [hy]
  apply (h s hinv hs).follow (k := fun r _ => k r) id id
  · intro s'
    obtain ⟨s'', hs''⟩ := hstop s'
    exact ⟨s'', fun _ => hs''⟩
  · intro last r hend hr
    by_cases hstops : Stops r
    · obtain ⟨s', rfl⟩ := hstops.eq_error
      obtain ⟨s'', hs''⟩ := hstop s'
      simp only [hs'']
      exact .done (absurd trivial) trivial
    · obtain ⟨hends, hrel⟩ := hk s r hstops hr
      exact .done (fun _ => K.rel_trans (hend hstops) hrel) hends

theorem Talks.bind {P : σ → Prop} {Q : α → σ → Prop} {R : β → σ → Prop}
    {x : Oracle → EStateM Halt σ α} {f : α → Oracle → EStateM Halt σ β}
    (hx : S.Talks P Q x) (hf : ∀ a, S.Talks (Q a) R (f a)) :
    S.Talks P R fun o => x o >>= fun a => f a o := by
  intro s hinv hs
  simp only [bind_eq_andThen]
  apply (hx s hinv hs).follow (k := fun r o => andThen (fun a => f a o) r) id id
  · exact fun s' => ⟨s', fun _ => rfl⟩
  · intro last r hend hr
    cases r with
    | ok a s' =>
        apply ((hf a s' hr.1 hr.2.2).earlier (hend id)).mono
        intro r' hr'
        exact hr'.of_rel hr.2.1
    | error e s' =>
        cases e with
        | fault g => exact .done hend hr
        | outOfFuel => exact .done hend trivial

theorem Speaks.bind {x : Oracle → EStateM Halt σ α} {f : α → Oracle → EStateM Halt σ β}
    (hx : S.Speaks x) (hf : ∀ a, S.Speaks (f a)) : S.Speaks fun o => x o >>= fun a => f a o :=
  Talks.bind hx hf

theorem Speaks.ite {c : Prop} [Decidable c] {x y : Oracle → EStateM Halt σ α}
    (hpos : c → S.Speaks x) (hneg : ¬ c → S.Speaks y) :
    S.Speaks fun o => if c then x o else y o := by
  by_cases h : c
  · simpa only [h, if_true] using hpos h
  · simpa only [h, if_false] using hneg h

/-!
# Single steps
-/

theorem Talks.pure {P : σ → Prop} {Q : α → σ → Prop} {a : α}
    (h : ∀ s, S.inv s → P s → Q a s) : S.Talks P Q fun _ => pure a :=
  .of_alike (.pure h)

theorem Speaks.pure (a : α) : S.Speaks fun _ => pure a :=
  .of_same (.pure a)

theorem Speaks.map {x : Oracle → EStateM Halt σ α} (h : S.Speaks x) (f : α → β) :
    S.Speaks fun o => f <$> x o := by
  have hbind := h.bind fun a => Speaks.pure (f a)
  simpa only [map_eq_pure_bind] using hbind

theorem Talks.fail {P : σ → Prop} {Q : α → σ → Prop} {f : Fault} (h : S.err f) :
    S.Talks P Q fun _ => fail f :=
  .of_alike (.fail h)

theorem Speaks.fail {f : Fault} (h : S.err f) : S.Speaks fun _ => (fail f : EStateM Halt σ α) :=
  .of_same (.fail h)

theorem Talks.fail_bind {P : σ → Prop} {Q : β → σ → Prop} {f : Fault}
    {k : Oracle → α → EStateM Halt σ β} (h : S.err f) :
    S.Talks P Q fun o => Bytecode.fail f >>= k o := by
  intro s hinv _
  exact .done (fun _ => K.rel_refl _) ⟨hinv, S.rel_refl s, h⟩

theorem Speaks.fail_bind {f : Fault} {k : Oracle → α → EStateM Halt σ β} (h : S.err f) :
    S.Speaks fun o => Bytecode.fail f >>= k o :=
  Talks.fail_bind h

theorem Talks.get_bind {P : σ → Prop} {R : β → σ → Prop} {f : σ → Oracle → EStateM Halt σ β}
    (h : ∀ s, P s → S.Talks (fun s' => s' = s) R (f s)) :
    S.Talks P R fun o => get >>= fun s => f s o := by
  intro s hinv hs
  exact h s hs s hinv rfl

theorem Speaks.get_bind {f : σ → Oracle → EStateM Halt σ β} (h : ∀ s, S.Speaks (f s)) :
    S.Speaks fun o => get >>= fun s => f s o := by
  intro s hinv hs
  exact h s s hinv hs

/-- Each answer of a list stays right while the others are found. -/
theorem Talks.mapM {P : σ → Prop} {R : α → β → σ → Prop} {f : α → Oracle → EStateM Halt σ β}
    {items : List α} (hR : ∀ {a b s s'}, S.rel s s' → R a b s → R a b s')
    (h : ∀ a ∈ items, S.Talks P (fun b s => R a b s ∧ P s) (f a)) :
    S.Talks P (fun answers s => List.Forall₂ (fun a b => R a b s) items answers ∧ P s)
      fun o => items.mapM fun a => f a o := by
  induction items with
  | nil => exact .pure fun _ _ hs => ⟨.nil, hs⟩
  | cons a items ih =>
      simp only [List.mapM_cons]
      refine (h a List.mem_cons_self).bind fun b => ?_
      have hrest := (ih fun a' ha' => h a' (List.mem_cons_of_mem a ha')).keep (E := R a b) hR
      refine Talks.bind (hrest.mono (fun _ _ hs => ⟨hs.2, hs.1⟩) fun _ _ _ hq => hq)
        fun answers => ?_
      exact .pure fun _ _ hs => ⟨.cons hs.2 hs.1.1, hs.1.2⟩

/-- A dialogue on a part of the state is one on the whole. -/
theorem dialogue_mapState {Q : α → σ → Prop} {Q' : α → τ → Prop} {s : σ} {t : τ} {last : Moment}
    {x : Oracle → EStateM.Result Halt σ α}
    (h : Dialogue K.manner S.machine (S.Ends Q s) last x) (put : σ → τ)
    (hput : ∀ s', S.inv s' → S.rel s s' → U.inv (put s') ∧ U.rel t (put s'))
    (hQ : ∀ a s', Q a s' → Q' a (put s')) (hmachine : ∀ s', U.machine (put s') = S.machine s')
    (herr : ∀ f, S.err f → U.err f) :
    Dialogue K.manner U.machine (U.Ends Q' t) last fun o => Terms.mapState put (x o) := by
  apply h.follow (k := fun r _ => Terms.mapState put r) id id
  · exact fun s' => ⟨put s', fun _ => rfl⟩
  · intro last r hend hr
    have hends : U.Ends Q' t (Terms.mapState put r) :=
      hr.mapState hput (fun a s' _ _ hq => hQ a s' hq) herr
    refine .done (fun hr' => ?_) hends
    cases r with
    | ok a s' =>
        have hstate := hend id
        rw [← hmachine] at hstate
        exact hstate
    | error e s' =>
        cases e with
        | fault f =>
            have hstate := hend id
            rw [← hmachine] at hstate
            exact hstate
        | outOfFuel => exact absurd trivial hr'

theorem Talks.onPart {P : σ → Prop} {P' : τ → Prop} {Q : α → σ → Prop} {Q' : α → τ → Prop}
    {x : Oracle → EStateM Halt σ α}
    (lift : EStateM Halt σ α → EStateM Halt τ α) (part : τ → σ) (put : τ → σ → τ)
    (hlift : ∀ z t, lift z t = Terms.mapState (put t) (z (part t)))
    (h : S.Talks P Q x)
    (hpart : ∀ t, U.inv t → P' t → S.inv (part t) ∧ P (part t))
    (hput : ∀ t s, U.inv t → S.inv s → S.rel (part t) s → U.inv (put t s) ∧ U.rel t (put t s))
    (hQ : ∀ a t s, Q a s → Q' a (put t s))
    (hmachine : ∀ t, S.machine (part t) = U.machine t)
    (hmachine' : ∀ t s, U.machine (put t s) = S.machine s)
    (herr : ∀ f, S.err f → U.err f) : U.Talks P' Q' fun o => lift (x o) := by
  intro t hinv ht
  rcases hpart t hinv ht with ⟨hinv', hp⟩
  have hdialogue := h (part t) hinv' hp
  rw [hmachine t] at hdialogue
  simp only [hlift]
  exact dialogue_mapState hdialogue (put t) (fun s hs hrel => hput t s hinv hs hrel)
    (fun a s hq => hQ a t s hq) (hmachine' t) herr

end Scene

/-!
# Work on the machine
-/

namespace Conduct

def scene (K : Conduct) : Scene K Machine where
  toTerms := K.toTerms
  machine := id
  machine_inv := id
  machine_rel := id

end Conduct
end Bytecode
