import Bytecode.Machine.Session
import Mathlib.Data.Set.Insert

/-!
# Dialogues

A request is carried out in a dialogue with its surroundings: it asks for types to be loaded and
for methods to be run, and goes on with each answer.  Nothing else of its surroundings matters.

A dialogue is represented by a function of the surroundings.  The questions in it can be told from
that function alone, and so can their order: a question comes up once all earlier ones are
answered.
-/

namespace Bytecode

variable {σ τ α β : Type}

/-!
# Questions and answers
-/

/-- What a request can ask of its surroundings. -/
inductive Query where
  | load (name : String)
  | run (method : Method) (arguments : List Value)

def Query.Reply : Query → Type
  | load _ => Loaded
  | run _ _ => Option Value

def Query.IsRun : Query → Prop
  | load _ => False
  | run _ _ => True

abbrev Oracle := (q : Query) → MachineM q.Reply

namespace Oracle

def load (o : Oracle) : Loader := fun name => o (.load name)

open Classical in
/-- The surroundings, cut down to the answers to some questions. -/
noncomputable def limited (o : Oracle) (known : Set (Query × Machine)) : Oracle := fun q m =>
  if (q, m) ∈ known then o q m else .error .outOfFuel m

end Oracle

/-- The outcome is that of a request that ran out of fuel. -/
def Stops : EStateM.Result Halt σ α → Prop
  | .error .outOfFuel _ => True
  | _ => False

theorem Stops.eq_error {r : EStateM.Result Halt σ α} (h : Stops r) :
    ∃ s, r = .error .outOfFuel s := by
  cases r with
  | ok a s => exact h.elim
  | error e s =>
      cases e with
      | fault f => exact h.elim
      | outOfFuel => exact ⟨s, rfl⟩

def lastState : EStateM.Result Halt σ α → σ
  | .ok _ s => s
  | .error _ s => s

/-- The question comes up once the known questions are answered, and no others: whether it is
answered matters. -/
def Asks (x : Oracle → EStateM.Result Halt σ α) (o : Oracle) (known : Set (Query × Machine))
    (q : Query) (m : Machine) : Prop :=
  (q, m) ∉ known ∧ ∃ other : Oracle,
    (∀ q' m', (q', m') ≠ (q, m) → other q' m' = o.limited known q' m') ∧
      x other ≠ x (o.limited known)

/-!
# Manners
-/

/-- A point of a dialogue at which the request goes on by itself. -/
inductive Moment where
  | begun (m : Machine)
  | answered (q : Query) (m : Machine)

def Moment.machine : Moment → Machine
  | begun m => m
  | answered _ m => m

/-- What may happen in a dialogue. -/
structure Manner where
  /-- The question may follow. -/
  asks : Moment → Query → Machine → Prop
  /-- The dialogue may end. -/
  ends : Moment → Machine → Prop
  /-- The answer is one that the request can rely on. -/
  serves : (q : Query) → Machine → EStateM.Result Halt Machine q.Reply → Prop

/-- The function of the surroundings is a dialogue in the given manner from the moment `last` on,
and its outcome satisfies `F`.  A question that is never answered is the last one. -/
inductive Dialogue (M : Manner) (view : σ → Machine) (F : EStateM.Result Halt σ α → Prop) :
    Moment → (Oracle → EStateM.Result Halt σ α) → Prop where
  | done {last : Moment} {r : EStateM.Result Halt σ α}
      (hend : ¬ Stops r → M.ends last (view (lastState r))) (hF : F r) :
      Dialogue M view F last fun _ => r
  | ask {last : Moment} {q : Query} {m : Machine}
      {k : EStateM.Result Halt Machine q.Reply → Oracle → EStateM.Result Halt σ α}
      (hask : M.asks last q m)
      (hstop : ∀ s, ∃ s', ∀ o, k (.error .outOfFuel s) o = .error .outOfFuel s')
      (hnext : ∀ r, M.serves q m r → Dialogue M view F (.answered q (lastState r)) (k r)) :
      Dialogue M view F last fun o => k (o q m) o

/-- The surroundings answer every question that may be asked. -/
def Manner.Honors (M : Manner) (o : Oracle) : Prop :=
  ∀ {last q m}, M.asks last q m → M.serves q m (o q m)

/-- What may follow an answer may follow the question. -/
structure Manner.Chains (M : Manner) : Prop where
  asks : ∀ {last q m r q' m'}, M.asks last q m → M.serves q m r → ¬ Stops r →
    M.asks (.answered q (lastState r)) q' m' → M.asks last q' m'
  ends : ∀ {last q m r m'}, M.asks last q m → M.serves q m r → ¬ Stops r →
    M.ends (.answered q (lastState r)) m' → M.ends last m'

namespace Dialogue

variable {M : Manner} {view : σ → Machine} {view' : τ → Machine}
  {F : EStateM.Result Halt σ α → Prop} {G : EStateM.Result Halt τ β → Prop} {last : Moment}
  {x : Oracle → EStateM.Result Halt σ α}

/-- A dialogue may be followed by whatever goes on from each of its outcomes, in the same manner or
in a wider one. -/
theorem follow {N : Manner} (h : Dialogue M view F last x)
    {k : EStateM.Result Halt σ α → Oracle → EStateM.Result Halt τ β}
    (hasks : ∀ {last q m}, M.asks last q m → N.asks last q m)
    (hserves : ∀ {q m r}, N.serves q m r → M.serves q m r)
    (hstop : ∀ s, ∃ s', ∀ o, k (.error .outOfFuel s) o = .error .outOfFuel s')
    (hk : ∀ last' r, (¬ Stops r → M.ends last' (view (lastState r))) → F r →
      Dialogue N view' G last' (k r)) :
    Dialogue N view' G last fun o => k (x o) o := by
  -- the second dialogue begins where the first one is done
  induction h with
  | done hend hF => exact hk _ _ hend hF
  | @ask last q m next hask hnextStop _ ih =>
      apply Dialogue.ask (k := fun r o => k (next r o) o) (hasks hask)
      · intro s
        obtain ⟨s', hnext⟩ := hnextStop s
        obtain ⟨s'', hconst⟩ := hstop s'
        refine ⟨s'', fun o => ?_⟩
        rw [hnext o, hconst o]
      · intro r hr
        exact ih r (hserves hr)

theorem mono {G : EStateM.Result Halt σ α → Prop} (h : Dialogue M view F last x)
    (hG : ∀ r, F r → G r) : Dialogue M view G last x := by
  induction h with
  | done hend hF => exact .done hend (hG _ hF)
  | ask hask hstop _ ih => exact .ask hask hstop ih

theorem recast {N : Manner} {last' : Moment} (h : Dialogue M view F last x)
    (hasks : ∀ {q m}, M.asks last q m → N.asks last' q m)
    (hends : ∀ {m}, M.ends last m → N.ends last' m)
    (hanswered : ∀ {last q m m₁ q' m'}, M.asks last q m → M.asks (.answered q m₁) q' m' →
      N.asks (.answered q m₁) q' m')
    (hended : ∀ {last q m m₁ m'}, M.asks last q m → M.ends (.answered q m₁) m' →
      N.ends (.answered q m₁) m')
    (hserves : ∀ {last q m r}, M.asks last q m → N.serves q m r → M.serves q m r) :
    Dialogue N view F last' x := by
  induction h generalizing last' with
  | done hend hF => exact .done (fun hr => hends (hend hr)) hF
  | ask hask hstop _ ih =>
      apply Dialogue.ask (hasks hask) hstop
      intro r hr
      exact ih r (hserves hask hr) (hanswered hask) (hended hask)

/-!
# What surroundings can rely on
-/

theorem outcome (h : Dialogue M view F last x) (hM : M.Chains) {o : Oracle} (ho : M.Honors o) :
    F (x o) ∧ (¬ Stops (x o) → M.ends last (view (lastState (x o)))) := by
  -- the surroundings answer the question, and the dialogue goes on from there
  induction h with
  | done hend hF => exact ⟨hF, hend⟩
  | @ask last q m next hask hstop _ ih =>
      have hserves := ho hask
      obtain ⟨hF, hend⟩ := ih (o q m) hserves
      refine ⟨hF, fun hgoes => ?_⟩
      by_cases hr : Stops (o q m)
      · obtain ⟨s, hs⟩ := hr.eq_error
        obtain ⟨s', hnext⟩ := hstop s
        dsimp only at hgoes
        rw [hs, hnext o] at hgoes
        exact absurd trivial hgoes
      · exact hM.ends hask hserves hr (hend hgoes)

section

variable {o : Oracle} {known : Set (Query × Machine)} {q : Query} {m : Machine}

theorem not_asks_const (r : EStateM.Result Halt σ α) : ¬ Asks (fun _ => r) o known q m := by
  rintro ⟨-, other, -, hne⟩
  exact hne rfl

theorem asks_next {q₀ : Query} {m₀ : Machine}
    {next : EStateM.Result Halt Machine q₀.Reply → Oracle → EStateM.Result Halt σ α}
    (hstop : ∀ s, ∃ s', ∀ o, next (.error .outOfFuel s) o = .error .outOfFuel s')
    (h : Asks (fun o => next (o q₀ m₀) o) o known q m) (hne : (q₀, m₀) ≠ (q, m)) :
    (q₀, m₀) ∈ known ∧ ¬ Stops (o q₀ m₀) ∧ Asks (next (o q₀ m₀)) o known q m := by
  obtain ⟨hnew, other, hother, hdiffer⟩ := h
  have hfirst := hother q₀ m₀ hne
  dsimp only at hdiffer
  rw [hfirst] at hdiffer
  have hgoes : ¬ Stops (o.limited known q₀ m₀) := by
    intro hr
    obtain ⟨s, hs⟩ := hr.eq_error
    obtain ⟨s', hconst⟩ := hstop s
    rw [hs, hconst, hconst] at hdiffer
    exact hdiffer rfl
  have hknown : (q₀, m₀) ∈ known := by
    by_contra hunknown
    apply hgoes
    rw [Oracle.limited, if_neg hunknown]
    trivial
  have hlimited : o.limited known q₀ m₀ = o q₀ m₀ := if_pos hknown
  rw [hlimited] at hgoes hdiffer
  exact ⟨hknown, hgoes, hnew, other, hother, hdiffer⟩

theorem asked (h : Dialogue M view F last x) (hM : M.Chains) (ho : M.Honors o)
    (hasks : Asks x o known q m) : M.asks last q m := by
  induction h with
  | done => exact absurd hasks (not_asks_const _)
  | @ask last q₀ m₀ next hask hstop _ ih =>
      by_cases hfirst : (q₀, m₀) = (q, m)
      · cases hfirst
        exact hask
      · obtain ⟨-, hgoes, hrest⟩ := asks_next hstop hasks hfirst
        exact hM.asks hask (ho hask) hgoes (ih _ (ho hask) hrest)

theorem answered (h : Dialogue M view F last x) (hM : M.Chains) (ho : M.Honors o)
    (hasks : Asks x o known q m) (hends : ¬ Stops (x o)) :
    ¬ Stops (o q m) ∧ M.ends (.answered q (lastState (o q m))) (view (lastState (x o))) := by
  induction h with
  | done => exact absurd hasks (not_asks_const _)
  | @ask last q₀ m₀ next hask hstop hnext ih =>
      by_cases hfirst : (q₀, m₀) = (q, m)
      · cases hfirst
        refine ⟨fun hr => ?_, ((hnext _ (ho hask)).outcome hM ho).2 hends⟩
        obtain ⟨s, hs⟩ := hr.eq_error
        obtain ⟨s', hnext⟩ := hstop s
        dsimp only at hends
        rw [hs, hnext o] at hends
        exact hends trivial
      · obtain ⟨-, -, hrest⟩ := asks_next hstop hasks hfirst
        exact ih _ (ho hask) hrest hends

/-- A question that comes up when another one is known to be answered follows that answer. -/
theorem following (h : Dialogue M view F last x) (hM : M.Chains) (ho : M.Honors o)
    {known' : Set (Query × Machine)} {q' : Query} {m' : Machine} (hasks : Asks x o known q m)
    (hasks' : Asks x o known' q' m') (hsub : known ⊆ known') (hmem : (q, m) ∈ known') :
    ¬ Stops (o q m) ∧ M.asks (.answered q (lastState (o q m))) q' m' := by
  have hne : (q, m) ≠ (q', m') := by
    intro heq
    rw [heq] at hmem
    exact hasks'.1 hmem
  induction h with
  | done => exact absurd hasks (not_asks_const _)
  | @ask last q₀ m₀ next hask hstop hnext ih =>
      by_cases hfirst : (q₀, m₀) = (q, m)
      · obtain ⟨-, hgoes, hrest⟩ := asks_next hstop hasks' (hfirst ▸ hne)
        cases hfirst
        exact ⟨hgoes, (hnext _ (ho hask)).asked hM ho hrest⟩
      · obtain ⟨hknown, -, hrest⟩ := asks_next hstop hasks hfirst
        have hother : (q₀, m₀) ≠ (q', m') := by
          intro heq
          apply hasks'.1
          rw [← heq]
          exact hsub hknown
        obtain ⟨-, -, hrest'⟩ := asks_next hstop hasks' hother
        exact ih _ (ho hask) hrest hrest'

end

end Dialogue
end Bytecode
