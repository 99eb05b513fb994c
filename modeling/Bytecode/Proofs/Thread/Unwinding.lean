import Bytecode.Proofs.Loading.Growth

/-!
# Unwinding

An exception goes through the frames of a run from the innermost outward, and through the handlers
of each frame in the order of its table.  Asking a handler can load classes, so every handler is
asked in the machine that those before it left behind.  The first handler that takes the exception
goes on with it; if there is none, the frames of the run are gone and the exception is reported.
-/

namespace Bytecode

open Machine

/-- The instruction lies in the range of the handler; the end of the range is outside. -/
def Handler.Guards (h : Handler) (address : Nat) : Prop :=
  h.start.toNat ≤ address ∧ address < h.stop.toNat

instance (h : Handler) (address : Nat) : Decidable (h.Guards address) :=
  inferInstanceAs (Decidable (_ ∧ _))

theorem Handler.covers_iff {h : Handler} {address : Nat} : h.covers address ↔ h.Guards address := by
  simp [covers, Guards]

theorem Object.className_of_shape {o o' : Object} (h : o.shape = o'.shape) :
    o.className = o'.className := by
  cases o with
  | ofInstance i =>
      cases o' with
      | ofInstance i' => exact congrArg Class.name (Sum.inl.inj h)
      | ofArray a' => cases h
  | ofArray a =>
      cases o' with
      | ofInstance i' => cases h
      | ofArray a' => exact congrArg (fun p => p.1.name) (Sum.inr.inj h)

theorem Machine.isInstanceOf_answers {load : Loader} {address : Nat} {target : String}
    {m : Machine} {o : Object} (ho : m.objects[address]? = some o)
    (hload : Descriptor.isArray target = false → ∃ c m', load.loadClass target m = .ok c m') :
    ∃ answer m', isInstanceOf load address target m = .ok answer m' := by
  unfold isInstanceOf
  rw [bind_of_ok (object_found ho)]
  cases o with
  | ofArray a => exact ⟨_, _, rfl⟩
  | ofInstance i =>
      cases harray : Descriptor.isArray target with
      | true => exact ⟨false, m, rfl⟩
      | false =>
          obtain ⟨c, m', hc⟩ := hload harray
          refine ⟨i.cls.looksLike c, m', ?_⟩
          simp only [Bool.false_eq_true, if_false]
          exact bind_of_ok hc

namespace Thread

variable {load : Loader} {base exception : Nat} {m m' m'' : Machine} {f : Frame} {h : Handler}

/-!
# The search
-/

inductive Refuses (load : Loader) (exception : Nat) :
    Frame × Handler → Machine → Machine → Prop where
  | outside {f : Frame} {h : Handler} {m : Machine} (hrange : ¬ h.Guards f.current) :
      Refuses load exception (f, h) m m
  | other {f : Frame} {h : Handler} {m m' : Machine} {name : String}
      (hrange : h.Guards f.current) (htype : h.catchType ≠ 0)
      (hname : f.pool.className h.catchType = .ok name)
      (htest : isInstanceOf load exception name m = .ok false m') :
      Refuses load exception (f, h) m m'

inductive Takes (load : Loader) (exception : Nat) :
    Frame × Handler → Machine → Machine → Prop where
  | every {f : Frame} {h : Handler} {m : Machine} (hrange : h.Guards f.current)
      (htype : h.catchType = 0) : Takes load exception (f, h) m m
  | fitting {f : Frame} {h : Handler} {m m' : Machine} {name : String}
      (hrange : h.Guards f.current) (htype : h.catchType ≠ 0)
      (hname : f.pool.className h.catchType = .ok name)
      (htest : isInstanceOf load exception name m = .ok true m') :
      Takes load exception (f, h) m m'

inductive AllRefuse (load : Loader) (exception : Nat) :
    List (Frame × Handler) → Machine → Machine → Prop where
  | nil (m : Machine) : AllRefuse load exception [] m m
  | cons {x : Frame × Handler} {rest : List (Frame × Handler)} {m m' m'' : Machine}
      (hfirst : Refuses load exception x m m') (hrest : AllRefuse load exception rest m' m'') :
      AllRefuse load exception (x :: rest) m m''

def handlers (frames : List Frame) : List (Frame × Handler) :=
  frames.flatMap fun f => f.method.handlers.map (f, ·)

/-- A place in the tables of some frames. -/
structure Site (frames : List Frame) where
  /-- Frames inside that of the handler. -/
  inner : List Frame
  frame : Frame
  outer : List Frame
  /-- Handlers before this one in the table of the frame. -/
  earlier : List Handler
  handler : Handler
  later : List Handler
  frames_eq : frames = inner ++ frame :: outer
  handlers_eq : frame.method.handlers = earlier ++ handler :: later

def Site.before {frames : List Frame} (s : Site frames) : List (Frame × Handler) :=
  handlers s.inner ++ s.earlier.map (s.frame, ·)

theorem AllRefuse.split {xs ys : List (Frame × Handler)}
    (h : AllRefuse load exception (xs ++ ys) m m'') :
    ∃ m', AllRefuse load exception xs m m' ∧ AllRefuse load exception ys m' m'' := by
  induction xs generalizing m with
  | nil => exact ⟨m, .nil m, h⟩
  | cons x xs ih =>
      cases h with
      | cons hfirst hrest =>
          obtain ⟨m₁, hxs, hys⟩ := ih hrest
          exact ⟨m₁, .cons hfirst hxs, hys⟩

theorem AllRefuse.of_refused {xs : List (Frame × Handler)}
    (h : ∀ before x after m', xs = before ++ x :: after → AllRefuse load exception before m m' →
      ∃ m'', Refuses load exception x m' m'') :
    ∃ m', AllRefuse load exception xs m m' := by
  induction xs generalizing m with
  | nil => exact ⟨m, .nil m⟩
  | cons x xs ih =>
      obtain ⟨m₁, hfirst⟩ := h [] x xs m rfl (.nil m)
      obtain ⟨m₂, hrest⟩ := ih fun before y after m' hsplit hbefore =>
        h (x :: before) y after m' (congrArg (x :: ·) hsplit) (.cons hfirst hbefore)
      exact ⟨m₂, .cons hfirst hrest⟩

theorem handlers_cons (f : Frame) (frames : List Frame) :
    handlers (f :: frames) = f.method.handlers.map (f, ·) ++ handlers frames :=
  List.flatMap_cons

def Site.under {frames : List Frame} (f : Frame) (s : Site frames) : Site (f :: frames) where
  inner := f :: s.inner
  frame := s.frame
  outer := s.outer
  earlier := s.earlier
  handler := s.handler
  later := s.later
  frames_eq := congrArg (f :: ·) s.frames_eq
  handlers_eq := s.handlers_eq

theorem Site.before_under {frames : List Frame} (f : Frame) (s : Site frames) :
    (s.under f).before = f.method.handlers.map (f, ·) ++ s.before := by
  simp only [before, under, handlers_cons, List.append_assoc]

theorem Site.split {frames : List Frame} (s : Site frames) :
    handlers frames =
      s.before ++ (s.frame, s.handler) :: (s.later.map (s.frame, ·) ++ handlers s.outer) := by
  simp only [before, handlers, congrArg _ s.frames_eq, List.flatMap_append, List.flatMap_cons,
    s.handlers_eq, List.map_append, List.map_cons, List.append_assoc, List.cons_append]

theorem Site.mem_handlers {frames : List Frame} (s : Site frames) :
    (s.frame, s.handler) ∈ handlers frames := by
  rw [s.split]
  exact List.mem_append_right _ List.mem_cons_self

theorem exists_site {frames : List Frame} {before after : List (Frame × Handler)}
    {x : Frame × Handler} (hsplit : handlers frames = before ++ x :: after) :
    ∃ s : Site frames, (s.frame, s.handler) = x ∧ s.before = before := by
  induction frames generalizing before with
  | nil => simp [handlers] at hsplit
  | cons f frames ih =>
      have hfurther {skipped : List (Frame × Handler)}
          (hrest : handlers frames = skipped ++ x :: after)
          (hbefore : f.method.handlers.map (f, ·) ++ skipped = before) :
          ∃ s : Site (f :: frames), (s.frame, s.handler) = x ∧ s.before = before := by
        obtain ⟨s, hs, hskipped⟩ := ih hrest
        refine ⟨s.under f, hs, ?_⟩
        rw [s.before_under, hskipped, hbefore]
      rw [handlers_cons] at hsplit
      rcases List.append_eq_append_iff.mp hsplit with ⟨skipped, hbefore, hrest⟩ |
        ⟨rest, hown, hrest⟩
      · exact hfurther hrest hbefore.symm
      · cases rest with
        | nil =>
            have hskipped : handlers frames = [] ++ x :: after := hrest.symm
            refine hfurther hskipped ?_
            rw [hown, List.append_nil, List.append_nil]
        | cons y rest =>
            -- the handler stands in the table of the innermost frame
            rw [List.cons_append, List.cons.injEq] at hrest
            obtain ⟨earlier, others, htable, rfl, hothers⟩ := List.map_eq_append_iff.mp hown
            obtain ⟨handler, later, rfl, hhandler, -⟩ := List.map_eq_cons_iff.mp hothers
            exact ⟨⟨[], f, frames, earlier, handler, later, rfl, htable⟩,
              hhandler.trans hrest.1.symm, rfl⟩

/-!
# What the search does
-/

theorem firstHandler_refused {rest : List Handler} (hrefuses : Refuses load exception (f, h) m m') :
    firstHandler load f exception (h :: rest) m = firstHandler load f exception rest m' := by
  rw [firstHandler]
  cases hrefuses with
  | outside hrange =>
      rw [if_neg (Handler.covers_iff.not.mpr hrange)]
  | other hrange htype hname htest =>
      rw [if_pos (Handler.covers_iff.mpr hrange), if_neg htype, hname]
      exact (bind_of_ok htest).trans rfl

theorem firstHandler_taken {rest : List Handler} (htakes : Takes load exception (f, h) m m') :
    firstHandler load f exception (h :: rest) m = .ok (some h.target.toNat) m' := by
  rw [firstHandler]
  cases htakes with
  | every hrange htype =>
      rw [if_pos (Handler.covers_iff.mpr hrange), if_pos htype]
      rfl
  | fitting hrange htype hname htest =>
      rw [if_pos (Handler.covers_iff.mpr hrange), if_neg htype, hname]
      exact (bind_of_ok htest).trans rfl

theorem firstHandler_passed {earlier rest : List Handler}
    (hrefused : AllRefuse load exception (earlier.map (f, ·)) m m') :
    firstHandler load f exception (earlier ++ rest) m = firstHandler load f exception rest m' := by
  induction earlier generalizing m with
  | nil =>
      cases hrefused
      rfl
  | cons h earlier ih =>
      cases hrefused with
      | cons hfirst hrest => exact (firstHandler_refused hfirst).trans (ih hrest)

theorem unwind_frames (frames others : List Frame) (t : Thread) :
    unwind load base exception frames { t with frames := others } =
      unwind load base exception frames t := by
  cases frames <;> rfl

/-- Frames whose handlers are all passed are dropped. -/
theorem unwind_passed {inner rest : List Frame} {t : Thread} (hbase : base ≤ rest.length)
    (hrefused : AllRefuse load exception (handlers inner) t.machine m) :
    unwind load base exception (inner ++ rest) t =
      unwind load base exception rest { t with machine := m } := by
  -- the handlers of the innermost frame are asked first
  induction inner generalizing t with
  | nil =>
      cases hrefused
      rfl
  | cons f inner ih =>
      rw [handlers_cons] at hrefused
      obtain ⟨m₁, hown, hinner⟩ := hrefused.split
      have hdeep : ¬ (inner ++ rest).length < base := by
        rw [List.length_append]
        omega
      have hfirst : firstHandler load f exception f.method.handlers t.machine = .ok none m₁ := by
        rw [← List.append_nil f.method.handlers, firstHandler_passed hown]
        rfl
      rw [List.cons_append, unwind_cons, if_neg hdeep, hfirst]
      -- the thread remembers the frame that was dropped, but the search is given its own frames
      exact (ih (t := ⟨m₁, f :: (inner ++ rest), t.result⟩) hinner).trans
        (unwind_frames rest _ { t with machine := m })

theorem unwind_taken {rest : List Frame} {earlier later : List Handler} {t : Thread}
    (hbase : base ≤ rest.length) (htable : f.method.handlers = earlier ++ h :: later)
    (hrefused : AllRefuse load exception (earlier.map (f, ·)) t.machine m)
    (htakes : Takes load exception (f, h) m m') :
    unwind load base exception (f :: rest) t =
      .ok () ⟨m', { f with stack := ⟨[.reference (some exception)]⟩, pc := h.target.toNat } :: rest,
        t.result⟩ := by
  rw [unwind_cons, if_neg (Nat.not_lt.mpr hbase), htable, firstHandler_passed hrefused,
    firstHandler_taken htakes]
  rfl

theorem unwind_below {below : List Frame} {t : Thread} (hbase : below.length = base) :
    unwind load base exception below t =
      .error (.fault (uncaught t.machine exception)) { t with frames := below } := by
  cases below with
  | nil => rfl
  | cons f below =>
      rw [unwind_cons, if_pos]
      rw [← hbase, List.length_cons]
      exact Nat.lt_succ_self _

/-!
# What is there during the search
-/

section

variable {xs : List (Frame × Handler)} (hload : growth.Loaders load load)

include hload

theorem Refuses.grows {x : Frame × Handler} (hrefuses : Refuses load exception x m m') :
    growth.rel m m' := by
  cases hrefuses with
  | outside => exact growth.rel_refl m
  | @other _ _ _ _ name _ _ _ htest =>
      have hends := (Charter.isInstanceOf_same hload exception name m trivial trivial).2
      rw [htest] at hends
      exact hends.2.1

theorem AllRefuse.grows (hrefused : AllRefuse load exception xs m m') : growth.rel m m' := by
  induction hrefused with
  | nil m => exact growth.rel_refl m
  | cons hfirst _ ih => exact growth.rel_trans (hfirst.grows hload) ih

/-- The exception is there as long as the search goes on, and its class never changes. -/
theorem AllRefuse.exception_kept (hrefused : AllRefuse load exception xs m m') {o : Object}
    (ho : m.objects[exception]? = some o) :
    ∃ o', m'.objects[exception]? = some o' ∧ o'.className = o.className := by
  obtain ⟨o', ho', hshape⟩ := (hrefused.grows hload).1 exception o ho
  exact ⟨o', ho', Object.className_of_shape hshape⟩

end

theorem uncaught_eq {o : Object} (ho : m.objects[exception]? = some o) :
    uncaught m exception =
      .uncaught (Native.substitute '/' '.' o.className) ((m.detailMessage? exception).getD "") := by
  simp only [uncaught, ho, Option.map_some, Option.getD_some, Native.substitute]

/-- The class that a handler in range names, if it names one, can be loaded where the handler is
asked.  An array type that is named is never loaded. -/
def CatchTypeLoads (load : Loader) (x : Frame × Handler) (m : Machine) : Prop :=
  x.2.Guards x.1.current → x.2.catchType ≠ 0 →
    ∃ name, x.1.pool.className x.2.catchType = .ok name ∧
      (Descriptor.isArray name = false → ∃ c m', load.loadClass name m = .ok c m')

theorem CatchTypeLoads.decides {x : Frame × Handler} {o : Object}
    (hloads : CatchTypeLoads load x m) (ho : m.objects[exception]? = some o) :
    (∃ m', Refuses load exception x m m') ∨ ∃ m', Takes load exception x m m' := by
  obtain ⟨f, h⟩ := x
  by_cases hrange : h.Guards f.current
  · by_cases htype : h.catchType = 0
    · exact .inr ⟨m, .every hrange htype⟩
    · obtain ⟨name, hname, hload⟩ := hloads hrange htype
      obtain ⟨answer, m', htest⟩ := isInstanceOf_answers ho hload
      cases answer with
      | false => exact .inl ⟨m', .other hrange htype hname htest⟩
      | true => exact .inr ⟨m', .fitting hrange htype hname htest⟩
  · exact .inl ⟨m, .outside hrange⟩

/-!
# The outcome
-/

/-- The handler at the site takes the exception when the search that starts in `m` comes to it. -/
def Site.Catches {frames : List Frame} (s : Site frames) (load : Loader) (exception : Nat)
    (m m' : Machine) : Prop :=
  ∃ m₁, AllRefuse load exception s.before m m₁ ∧ Takes load exception (s.frame, s.handler) m₁ m'

section

variable {t : Thread} {own below : List Frame}

theorem unwind_catches {s : Site own} (hcatches : s.Catches load exception t.machine m)
    (hbase : base ≤ below.length) :
    unwind load base exception (own ++ below) t =
      .ok () ⟨m, { s.frame with
        stack := ⟨[.reference (some exception)]⟩
        pc := s.handler.target.toNat } :: (s.outer ++ below), t.result⟩ := by
  obtain ⟨m₁, hrefused, htakes⟩ := hcatches
  obtain ⟨m₀, hinner, hearlier⟩ := hrefused.split
  have hdeep : base ≤ (s.outer ++ below).length := by
    rw [List.length_append]
    omega
  calc unwind load base exception (own ++ below) t
      = unwind load base exception (s.inner ++ s.frame :: (s.outer ++ below)) t := by
        simp only [s.frames_eq, List.append_assoc, List.cons_append]
    _ = unwind load base exception (s.frame :: (s.outer ++ below)) { t with machine := m₀ } :=
        unwind_passed (Nat.le_succ_of_le hdeep) hinner
    _ = _ := unwind_taken hdeep s.handlers_eq hearlier htakes

theorem allRefuse_of_uncaught {o : Object} (hload : growth.Loaders load load)
    (ho : m.objects[exception]? = some o)
    (hloads : ∀ (s : Site own) (m' : Machine), AllRefuse load exception s.before m m' →
      CatchTypeLoads load (s.frame, s.handler) m')
    (hnone : ∀ (s : Site own) (m' : Machine), ¬ s.Catches load exception m m') :
    ∃ m', AllRefuse load exception (handlers own) m m' := by
  refine AllRefuse.of_refused fun before x after m' hsplit hbefore => ?_
  obtain ⟨s, rfl, rfl⟩ := exists_site hsplit
  obtain ⟨o', ho', -⟩ := hbefore.exception_kept hload ho
  rcases (hloads s m' hbefore).decides ho' with hrefuses | ⟨m'', htakes⟩
  · exact hrefuses
  · exact absurd ⟨m', hbefore, htakes⟩ (hnone s m'')

end

/-- An exception goes on at the first handler of the innermost frame that takes it, and only the
frames inside that one are dropped.  If no handler of the run takes it, it is reported with the name
of its class, and exactly the frames below the run are left.  Native methods that the search comes
to run may do anything but remove objects. -/
theorem doThrow_outcome {host : Host} (hnatives : host.natives.Keeps growth) {fuel : Nat}
    {t : Thread} {own below : List Frame} {o : Object} (hframes : t.frames = own ++ below)
    (hbase : below.length = base) (ho : t.machine.objects[exception]? = some o)
    (hloads : ∀ (s : Site own) (m : Machine),
      AllRefuse (host.load fuel) exception s.before t.machine m →
        CatchTypeLoads (host.load fuel) (s.frame, s.handler) m) :
    (∀ (s : Site own) (m : Machine), s.Catches (host.load fuel) exception t.machine m →
      doThrow (host.load fuel) base exception t =
        .ok () ⟨m, { s.frame with
          stack := ⟨[.reference (some exception)]⟩
          pc := s.handler.target.toNat } :: (s.outer ++ below), t.result⟩) ∧
    ((∀ (s : Site own) (m : Machine), ¬ s.Catches (host.load fuel) exception t.machine m) →
      ∃ m, AllRefuse (host.load fuel) exception (handlers own) t.machine m ∧
        doThrow (host.load fuel) base exception t =
          .error (.fault (.uncaught (Native.substitute '/' '.' o.className)
            ((m.detailMessage? exception).getD ""))) ⟨m, below, t.result⟩) := by
  have hload := host.load_growth hnatives fuel
  have hthrow : doThrow (host.load fuel) base exception t =
      unwind (host.load fuel) base exception (own ++ below) t := by
    rw [← hframes]
    rfl
  rw [hthrow]
  constructor
  · intro s m hcatches
    exact unwind_catches hcatches hbase.ge
  · intro hnone
    -- no site catches the exception, so all handlers refuse one after the other
    obtain ⟨m, hrefused⟩ := allRefuse_of_uncaught hload ho hloads hnone
    obtain ⟨o', ho', hname⟩ := hrefused.exception_kept hload ho
    refine ⟨m, hrefused, ?_⟩
    rw [unwind_passed hbase.ge hrefused, unwind_below hbase, uncaught_eq ho', hname]

namespace TwoFrames

/-!
The exception is thrown at address 4 of the inner frame, where one range has just ended and the
other handler names a class that does not fit.  The outer frame is in the middle of a call.
-/

def pool : ClassPool :=
  ⟨"A", ⟨#[.unusable, .utf8 "Other", .classRef 1, .utf8 "p/Err", .classRef 3]⟩⟩

def method (handlers : List Handler) : Method :=
  ⟨"A", "run", "()V", .ofWord 0x0009, ⟨[], .void⟩, 2, 1, #[], handlers, rfl⟩

def cls (name : String) : Class :=
  .mk ⟨name, .ofWord 0x0021, [], [], []⟩ none []

def frame (handlers : List Handler) (pc current : Nat) : Frame :=
  { Frame.enter (method handlers) (cls "A") pool [] with stack := ⟨[.int 1]⟩, pc, current }

def inner : Frame := frame [⟨0, 4, 40, 0⟩, ⟨0, 9, 50, 2⟩] 5 4

def outer : Frame := frame [⟨0, 8, 60, 4⟩, ⟨0, 8, 70, 0⟩] 8 5

def bottom : Frame := frame [⟨0, 8, 80, 0⟩] 3 0

def machine : Machine :=
  { Machine.empty with
    classes := ["Other", "p/Err"].map fun name =>
      { Entry.ofClass (cls name) with state := .initialized }
    objects := #[.ofInstance (.ofClass (cls "p/Err"))] }

def host : Host :=
  ⟨ClassPath.ofRows [], Native.library, 8, false⟩

def thread : Thread :=
  ⟨machine, [inner, outer, bottom], none⟩

theorem named_registered :
    ∀ x ∈ handlers [inner, outer], CatchTypeLoads (host.load 1) x machine ∧
      ∀ m, Refuses (host.load 1) 0 x machine m → m = machine := by
  have hunnamed {x : Frame × Handler} (h : ¬ (x.2.Guards x.1.current ∧ x.2.catchType ≠ 0)) :
      CatchTypeLoads (host.load 1) x machine ∧
        ∀ m, Refuses (host.load 1) 0 x machine m → m = machine := by
    refine ⟨fun hrange htype => absurd ⟨hrange, htype⟩ h, fun m hrefuses => ?_⟩
    cases hrefuses with
    | outside => rfl
    | other hrange htype => exact absurd ⟨hrange, htype⟩ h
  have hnamed {x : Frame × Handler} {name : String} {c : Class} {answer : Bool}
      (hname : x.1.pool.className x.2.catchType = .ok name)
      (hload : (host.load 1).loadClass name machine = .ok c machine)
      (htest : isInstanceOf (host.load 1) 0 name machine = .ok answer machine) :
      CatchTypeLoads (host.load 1) x machine ∧
        ∀ m, Refuses (host.load 1) 0 x machine m → m = machine := by
    refine ⟨fun _ _ => ⟨name, hname, fun _ => ⟨c, machine, hload⟩⟩, fun m hrefuses => ?_⟩
    cases hrefuses with
    | outside => rfl
    | other _ _ hname' htest' =>
        cases hname.symm.trans hname'
        exact (EStateM.Result.ok.inj (htest.symm.trans htest')).2.symm
  have hasked : handlers [inner, outer] =
      [(inner, ⟨0, 4, 40, 0⟩), (inner, ⟨0, 9, 50, 2⟩), (outer, ⟨0, 8, 60, 4⟩),
        (outer, ⟨0, 8, 70, 0⟩)] := rfl
  simp only [hasked, List.forall_mem_cons]
  exact ⟨hunnamed (by decide), hnamed rfl rfl rfl, hnamed rfl rfl rfl, hunnamed (by decide), nofun⟩

theorem allRefuse_machine {xs : List (Frame × Handler)} {m m' : Machine}
    (hrefused : AllRefuse (host.load 1) 0 xs m m') (hm : m = machine)
    (hmem : ∀ x ∈ xs, x ∈ handlers [inner, outer]) : m' = machine := by
  induction hrefused with
  | nil m => exact hm
  | cons hfirst _ ih =>
      subst hm
      have hstill := (named_registered _ (hmem _ List.mem_cons_self)).2 _ hfirst
      exact ih hstill fun x hx => hmem x (List.mem_cons_of_mem _ hx)

section

variable {own : List Frame} (hown : handlers own ⊆ handlers [inner, outer]) (s : Site own)

include hown

theorem site_machine {m : Machine} (hrefused : AllRefuse (host.load 1) 0 s.before machine m) :
    m = machine := by
  refine allRefuse_machine hrefused rfl fun x hx => hown ?_
  rw [s.split]
  exact List.mem_append_left _ hx

theorem site_loads (m : Machine) (hrefused : AllRefuse (host.load 1) 0 s.before machine m) :
    CatchTypeLoads (host.load 1) (s.frame, s.handler) m := by
  rw [site_machine hown s hrefused]
  exact (named_registered _ (hown s.mem_handlers)).1

end

theorem inner_refuses :
    ∀ x ∈ handlers [inner], ∀ m, ¬ Takes (host.load 1) 0 x machine m := by
  have hasked : handlers [inner] = [(inner, ⟨0, 4, 40, 0⟩), (inner, ⟨0, 9, 50, 2⟩)] := rfl
  simp only [hasked, List.forall_mem_cons]
  refine ⟨fun m htakes => ?_, fun m htakes => ?_, nofun⟩
  · have hrange : ¬ Handler.Guards ⟨0, 4, 40, 0⟩ inner.current := by decide
    cases htakes with
    | every h => exact hrange h
    | fitting h => exact hrange h
  · have hname : inner.pool.className 2 = .ok "Other" := rfl
    have htest : isInstanceOf (host.load 1) 0 "Other" machine = .ok false machine := rfl
    cases htakes with
    | every _ htype => cases htype
    | fitting _ _ hname' htest' =>
        cases hname.symm.trans hname'
        cases htest.symm.trans htest'

/-- The run that owns two frames goes on in the outer one; the run that owns only the inner one ends
with the exception, although the frame below would take it. -/
theorem caught_or_reported :
    doThrow (host.load 1) 1 0 thread =
        .ok ()
          ⟨machine, [{ outer with stack := ⟨[.reference (some 0)]⟩, pc := 60 }, bottom], none⟩ ∧
      ∃ m message, doThrow (host.load 1) 2 0 thread =
        .error (.fault (.uncaught "p.Err" message)) ⟨m, [outer, bottom], none⟩ := by
  have hnatives : host.natives.Keeps growth := Native.library_keeps growth
  constructor
  · let s : Site [inner, outer] :=
      ⟨[inner], outer, [], [], ⟨0, 8, 60, 4⟩, [⟨0, 8, 70, 0⟩], rfl, rfl⟩
    have hframes : thread.frames = [inner, outer] ++ [bottom] := rfl
    refine (doThrow_outcome hnatives hframes rfl rfl (site_loads fun _ hx => hx)).1 s machine
      ⟨machine, .cons (.outside (by decide)) ?_, .fitting (by decide) (by decide) rfl rfl⟩
    exact .cons (.other (by decide) (by decide) rfl rfl) (.nil machine)
  · have hframes : thread.frames = [inner] ++ [outer, bottom] := rfl
    have hown : handlers [inner] ⊆ handlers [inner, outer] := List.subset_append_left _ _
    have hnone (s : Site [inner]) (m : Machine) : ¬ s.Catches (host.load 1) 0 machine m := by
      rintro ⟨m₁, hrefused, htakes⟩
      rw [site_machine hown s hrefused] at htakes
      exact inner_refuses _ s.mem_handlers m htakes
    obtain ⟨m, -, hend⟩ :=
      (doThrow_outcome hnatives hframes rfl rfl (site_loads hown)).2 hnone
    exact ⟨m, _, hend⟩

end TwoFrames

end Thread
end Bytecode
