import Bytecode.Proofs.Request

/-!
# Terms of requests

Terms say what a request may rely on when it starts, how the state at its end is related to the
state at its start, and with which faults it may end.  A request that runs out of fuel has not
ended, and nothing is said about it.

Requests are compared in pairs: two requests are alike when they end in the same way wherever the
terms hold, and keep the terms.  With one and the same request on both sides this says that it keeps
the terms; with two it says that whatever tells them apart lies outside the terms.
-/

namespace Bytecode

structure Terms (σ : Type) where
  /-- Holds when a request starts and when it ends. -/
  inv : σ → Prop
  /-- Holds between the state at the start and the state at the end. -/
  rel : σ → σ → Prop
  /-- Faults with which a request may end. -/
  err : Fault → Prop
  rel_refl : ∀ s, rel s s
  rel_trans : ∀ {a b c}, rel a b → rel b c → rel a c

namespace Terms

variable {σ τ α β : Type} {T : Terms σ} {U : Terms τ}

/-- The outcome of a request that started at `s` keeps the terms, and an answer satisfies `Q`. -/
def Ends (T : Terms σ) (Q : α → σ → Prop) (s : σ) : EStateM.Result Halt σ α → Prop
  | .ok a s' => T.inv s' ∧ T.rel s s' ∧ Q a s'
  | .error (.fault f) s' => T.inv s' ∧ T.rel s s' ∧ T.err f
  | .error .outOfFuel _ => True

/-- From every state that satisfies `P`, both requests end in the same way and keep the terms. -/
def Alike (T : Terms σ) (P : σ → Prop) (Q : α → σ → Prop) (x y : EStateM Halt σ α) : Prop :=
  ∀ s, T.inv s → P s → x s = y s ∧ T.Ends Q s (x s)

/-- Requests that are alike from every state, with nothing more to say about their answers. -/
def Same (T : Terms σ) (x y : EStateM Halt σ α) : Prop :=
  T.Alike (fun _ => True) (fun _ _ => True) x y

def mapState (view : σ → τ) : EStateM.Result Halt σ α → EStateM.Result Halt τ α
  | .ok a s => .ok a (view s)
  | .error e s => .error e (view s)

theorem mapState_id (outcome : EStateM.Result Halt σ α) : mapState id outcome = outcome := by
  cases outcome <;> rfl

theorem Ends.mapState {Q : α → σ → Prop} {R : α → τ → Prop} {s : σ} {t : τ} {view : σ → τ}
    {outcome : EStateM.Result Halt σ α} (h : T.Ends Q s outcome)
    (hstate : ∀ s', T.inv s' → T.rel s s' → U.inv (view s') ∧ U.rel t (view s'))
    (hQ : ∀ a s', T.inv s' → T.rel s s' → Q a s' → R a (view s'))
    (herr : ∀ f, T.err f → U.err f) :
    U.Ends R t (mapState view outcome) := by
  cases outcome with
  | ok a s' =>
      rcases h with ⟨hinv, hrel, hq⟩
      rcases hstate s' hinv hrel with ⟨hinv', hrel'⟩
      exact ⟨hinv', hrel', hQ a s' hinv hrel hq⟩
  | error e s' =>
      cases e with
      | fault f =>
          rcases h with ⟨hinv, hrel, hf⟩
          rcases hstate s' hinv hrel with ⟨hinv', hrel'⟩
          exact ⟨hinv', hrel', herr f hf⟩
      | outOfFuel => trivial

theorem Ends.restate {U : Terms σ} {Q : α → σ → Prop} {s t : σ}
    {outcome : EStateM.Result Halt σ α} (h : T.Ends Q s outcome)
    (hstate : ∀ s', T.inv s' → T.rel s s' → U.inv s' ∧ U.rel t s')
    (herr : ∀ f, T.err f → U.err f) : U.Ends Q t outcome := by
  rw [← mapState_id outcome]
  exact h.mapState hstate (fun _ _ _ _ hq => hq) herr

theorem Ends.mono {Q R : α → σ → Prop} {s : σ} {outcome : EStateM.Result Halt σ α}
    (h : T.Ends Q s outcome) (hQ : ∀ a s', T.inv s' → T.rel s s' → Q a s' → R a s') :
    T.Ends R s outcome := by
  rw [← mapState_id outcome]
  exact h.mapState (fun _ hinv hrel => ⟨hinv, hrel⟩) hQ fun _ hf => hf

theorem Ends.of_rel {Q : α → σ → Prop} {s s' : σ} {outcome : EStateM.Result Halt σ α}
    (hrel : T.rel s s') (h : T.Ends Q s' outcome) : T.Ends Q s outcome :=
  h.restate (fun _ hinv hrel' => ⟨hinv, T.rel_trans hrel hrel'⟩) fun _ hf => hf

theorem Alike.onPart {P : σ → Prop} {P' : τ → Prop} {Q : α → σ → Prop} {Q' : α → τ → Prop}
    {x y : EStateM Halt σ α}
    (lift : EStateM Halt σ α → EStateM Halt τ α) (part : τ → σ) (put : τ → σ → τ)
    (hlift : ∀ z t, lift z t = mapState (put t) (z (part t)))
    (h : T.Alike P Q x y)
    (hpart : ∀ t, U.inv t → P' t → T.inv (part t) ∧ P (part t))
    (hput : ∀ t s, U.inv t → T.inv s → T.rel (part t) s → U.inv (put t s) ∧ U.rel t (put t s))
    (hQ : ∀ a t s, Q a s → Q' a (put t s))
    (herr : ∀ f, T.err f → U.err f) : U.Alike P' Q' (lift x) (lift y) := by
  intro t hinv ht
  rcases hpart t hinv ht with ⟨hinv', hp⟩
  rcases h (part t) hinv' hp with ⟨heq, hends⟩
  rw [hlift, hlift, heq]
  rw [heq] at hends
  constructor
  · rfl
  · exact hends.mapState (fun s hs hrel => hput t s hinv hs hrel) (fun a s _ _ hq => hQ a t s hq)
      herr

/-!
# Sequences
-/

theorem Alike.mono {P P' : σ → Prop} {Q Q' : α → σ → Prop} {x y : EStateM Halt σ α}
    (h : T.Alike P Q x y) (hP : ∀ s, T.inv s → P' s → P s)
    (hQ : ∀ a s, T.inv s → Q a s → Q' a s) : T.Alike P' Q' x y := by
  intro s hinv hs
  rcases h s hinv (hP s hinv hs) with ⟨heq, hends⟩
  exact ⟨heq, hends.mono fun a s' hinv' _ hq => hQ a s' hinv' hq⟩

theorem Alike.keep {P F : σ → Prop} {Q : α → σ → Prop} {x y : EStateM Halt σ α}
    (h : T.Alike P Q x y) (hF : ∀ {s s'}, T.rel s s' → F s → F s') :
    T.Alike (fun s => P s ∧ F s) (fun a s => Q a s ∧ F s) x y := by
  intro s hinv hs
  rcases h s hinv hs.1 with ⟨heq, hends⟩
  exact ⟨heq, hends.mono fun a s' _ hrel hq => ⟨hq, hF hrel hs.2⟩⟩

theorem Alike.assume {P : σ → Prop} {Q : α → σ → Prop} {x y : EStateM Halt σ α}
    (h : ∀ s, T.inv s → P s → T.Alike P Q x y) : T.Alike P Q x y := by
  intro s hinv hs
  exact h s hinv hs s hinv hs

theorem Alike.bind {P : σ → Prop} {Q : α → σ → Prop} {R : β → σ → Prop}
    {x y : EStateM Halt σ α} {f g : α → EStateM Halt σ β}
    (hx : T.Alike P Q x y) (hf : ∀ a, T.Alike (Q a) R (f a) (g a)) :
    T.Alike P R (x >>= f) (y >>= g) := by
  intro s hinv hs
  rcases hx s hinv hs with ⟨heq, hends⟩
  cases hxs : x s with
  | ok a s' =>
      rw [hxs] at heq hends
      rw [bind_of_ok hxs, bind_of_ok heq.symm]
      rcases hends with ⟨hinv', hrel, hq⟩
      rcases hf a s' hinv' hq with ⟨heq', hends'⟩
      exact ⟨heq', hends'.of_rel hrel⟩
  | error e s' =>
      rw [hxs] at heq hends
      rw [bind_of_error hxs, bind_of_error heq.symm]
      refine ⟨rfl, ?_⟩
      cases e with
      | fault f => exact hends
      | outOfFuel => trivial

theorem Same.alike {P : σ → Prop} {x y : EStateM Halt σ α} (h : T.Same x y) :
    T.Alike P (fun _ _ => True) x y :=
  h.mono (fun _ _ _ => trivial) fun _ _ _ _ => trivial

theorem Alike.same {Q : α → σ → Prop} {x y : EStateM Halt σ α}
    (h : T.Alike (fun _ => True) Q x y) : T.Same x y :=
  h.mono (fun _ _ _ => trivial) fun _ _ _ _ => trivial

theorem Alike.along {F : σ → Prop} {Q : α → σ → Prop} {x y : EStateM Halt σ α}
    (h : T.Alike (fun _ => True) Q x y) (hF : ∀ {s s'}, T.rel s s' → F s → F s') :
    T.Alike F (fun a s => Q a s ∧ F s) x y :=
  (h.keep hF).mono (fun _ _ hs => ⟨trivial, hs⟩) fun _ _ _ hq => hq

theorem Same.along {F : σ → Prop} {x y : EStateM Halt σ α} (h : T.Same x y)
    (hF : ∀ {s s'}, T.rel s s' → F s → F s') : T.Alike F (fun _ => F) x y :=
  (Alike.along h hF).mono (fun _ _ hs => hs) fun _ _ _ hq => hq.2

theorem Same.bind {x y : EStateM Halt σ α} {f g : α → EStateM Halt σ β}
    (hx : T.Same x y) (hf : ∀ a, T.Same (f a) (g a)) : T.Same (x >>= f) (y >>= g) :=
  Alike.bind hx hf

theorem Alike.ite {c : Prop} [Decidable c] {P : σ → Prop} {Q : α → σ → Prop}
    {x y x' y' : EStateM Halt σ α} (hpos : c → T.Alike P Q x y) (hneg : ¬ c → T.Alike P Q x' y') :
    T.Alike P Q (if c then x else x') (if c then y else y') := by
  by_cases h : c
  · simpa only [h, if_true] using hpos h
  · simpa only [h, if_false] using hneg h

theorem Same.ite {c : Prop} [Decidable c] {x y x' y' : EStateM Halt σ α}
    (hpos : c → T.Same x y) (hneg : ¬ c → T.Same x' y') :
    T.Same (if c then x else x') (if c then y else y') :=
  Alike.ite hpos hneg

/-!
# Single steps
-/

theorem Alike.pure {P : σ → Prop} {Q : α → σ → Prop} {a : α} (h : ∀ s, T.inv s → P s → Q a s) :
    T.Alike P Q (pure a) (pure a) := by
  intro s hinv hs
  exact ⟨rfl, hinv, T.rel_refl s, h s hinv hs⟩

theorem Alike.mapM {P : σ → Prop} {f g : α → EStateM Halt σ β} {items : List α}
    (h : ∀ a ∈ items, T.Alike P (fun _ => P) (f a) (g a)) :
    T.Alike P (fun _ => P) (items.mapM f) (items.mapM g) := by
  induction items with
  | nil => exact .pure fun _ _ hs => hs
  | cons a items ih =>
      rw [List.mapM_cons, List.mapM_cons]
      exact (h a List.mem_cons_self).bind fun _ =>
        (ih fun b hb => h b (List.mem_cons_of_mem a hb)).bind fun _ => .pure fun _ _ hs => hs

theorem Same.pure (a : α) : T.Same (pure a) (pure a) :=
  Alike.pure fun _ _ _ => trivial

theorem Alike.map {P : σ → Prop} {x y : EStateM Halt σ α}
    (h : T.Alike P (fun _ _ => True) x y) (f : α → β) :
    T.Alike P (fun _ _ => True) (f <$> x) (f <$> y) := by
  rw [map_eq_pure_bind, map_eq_pure_bind]
  exact h.bind fun a => .pure fun _ _ _ => trivial

theorem Same.map {x y : EStateM Halt σ α} (h : T.Same x y) (f : α → β) :
    T.Same (f <$> x) (f <$> y) :=
  Alike.map h f

theorem Alike.fail {P : σ → Prop} {Q : α → σ → Prop} {f : Fault} (h : T.err f) :
    T.Alike P Q (fail f) (fail f) := by
  intro s hinv _
  exact ⟨rfl, hinv, T.rel_refl s, h⟩

theorem Same.fail {f : Fault} (h : T.err f) : T.Same (α := α) (fail f) (fail f) :=
  Alike.fail h

/-- What would follow a failure does not matter. -/
theorem Alike.fail_bind {P : σ → Prop} {Q : β → σ → Prop} {f : Fault}
    {k l : α → EStateM Halt σ β} (h : T.err f) :
    T.Alike P Q (Bytecode.fail f >>= k) (Bytecode.fail f >>= l) := by
  intro s hinv _
  exact ⟨rfl, hinv, T.rel_refl s, h⟩

theorem Same.fail_bind {f : Fault} {k l : α → EStateM Halt σ β} (h : T.err f) :
    T.Same (Bytecode.fail f >>= k) (Bytecode.fail f >>= l) :=
  Alike.fail_bind h

theorem Same.get_bind {f g : σ → EStateM Halt σ β} (h : ∀ s, T.Same (f s) (g s)) :
    T.Same (get >>= f) (get >>= g) := by
  intro s hinv hs
  exact h s s hinv hs

theorem Alike.get_bind {P : σ → Prop} {R : β → σ → Prop} {f g : σ → EStateM Halt σ β}
    (h : ∀ s, P s → T.Alike (fun s' => s' = s) R (f s) (g s)) :
    T.Alike P R (get >>= f) (get >>= g) := by
  intro s hinv hs
  exact h s hs s hinv rfl

theorem Alike.modify {P : σ → Prop} {Q : PUnit → σ → Prop} {g : σ → σ}
    (h : ∀ s, T.inv s → P s → T.inv (g s) ∧ T.rel s (g s) ∧ Q ⟨⟩ (g s)) :
    T.Alike P Q (modify g) (modify g) := by
  intro s hinv hs
  exact ⟨rfl, h s hinv hs⟩

theorem Same.modify {g : σ → σ} (h : ∀ s, T.inv s → T.inv (g s) ∧ T.rel s (g s)) :
    T.Same (modify g) (modify g) :=
  Alike.modify fun s hinv _ => ⟨(h s hinv).1, (h s hinv).2, trivial⟩

theorem Alike.lift {P : σ → Prop} {Q : α → σ → Prop} {x : Except Fault α}
    (herr : ∀ f, x = .error f → T.err f) (hok : ∀ a s, x = .ok a → P s → Q a s) :
    T.Alike P Q (liftM x) (liftM x) := by
  intro s hinv hs
  cases hx : x with
  | ok a => exact ⟨rfl, hinv, T.rel_refl s, hok a s hx hs⟩
  | error f => exact ⟨rfl, hinv, T.rel_refl s, herr f hx⟩

theorem Same.lift {x : Except Fault α} (herr : ∀ f, x = .error f → T.err f) :
    T.Same (liftM x) (liftM x) :=
  Alike.lift herr fun _ _ _ _ => trivial

theorem Alike.liftMalformed {P : σ → Prop} {Q : α → σ → Prop} {x : Except Malformed α}
    (herr : ∀ f, x = .error f → T.err (.malformed f)) (hok : ∀ a s, x = .ok a → P s → Q a s) :
    T.Alike P Q (liftM x) (liftM x) := by
  intro s hinv hs
  cases hx : x with
  | ok a => exact ⟨rfl, hinv, T.rel_refl s, hok a s hx hs⟩
  | error f => exact ⟨rfl, hinv, T.rel_refl s, herr f hx⟩

theorem Same.liftMalformed {x : Except Malformed α}
    (herr : ∀ f, x = .error f → T.err (.malformed f)) : T.Same (liftM x) (liftM x) :=
  Alike.liftMalformed herr fun _ _ _ _ => trivial

end Terms
end Bytecode
