import Bytecode.Proofs.Execution.InstanceCalls
import Bytecode.Proofs.History.InternalFaults
import Bytecode.Proofs.History.TypeTests

/-!
# Calls of methods of a superclass

A method that is called directly is found by a reference and by the class of the caller; what stands
on the stack has no part in it.  Where the reference names a supertype of the caller, the search
starts above the caller and only leads further up.  The hierarchy has no cycles, so the method is
declared neither by the caller nor by a subtype of it.
-/

namespace Bytecode

open Machine

/-!
# Above the caller
-/

section

variable {classes : Set Class} {path : ClassPath} {m m' : Machine} {b c d t : Class}
  {name descriptor : String} {method resolved : Method}

theorem Hierarchy.not_looksLike_of_above (h : Hierarchy classes) (hb : b ∈ classes)
    (habove : Relation.TransGen Class.Inherits b d) : d.looksLike b = false := by
  have hd := h.inherited hb habove.to_reflTransGen
  cases hlooks : d.looksLike b with
  | false => rfl
  | true =>
      have hcycle := habove.trans_left (h.inherits_of_looksLike hd hb hlooks)
      have hswapped := Relation.transGen_swap.mp hcycle
      exact absurd hswapped (Class.inherits_wf.transGen.asymmetric b b hswapped)

/-- A registered class declares the method, and is neither the caller nor a subtype of it. -/
structure Machine.DeclaresApart (m : Machine) (caller : Class) (method : Method) (d : Class) :
    Prop where
  registered : m.class? method.owner = some d
  declared : method ∈ d.methods
  apart : d.looksLike caller = false

theorem Machine.Consistent.declared_above (h : m.Consistent path) (hb : b ∈ m.registered)
    (habove : Relation.TransGen Class.Inherits b c)
    (hmethod : c.method? name descriptor = some method) :
    ∃ d, m.DeclaresApart b method d := by
  have hc := h.hierarchy.inherited hb habove.to_reflTransGen
  rcases h.supplied hc hmethod with ⟨d, hsupplies⟩
  have hfurther := h.hierarchy.inherits_of_looksLike hc hsupplies.registered hsupplies.assignable
  refine ⟨d, ?_, ?_, ?_⟩
  · rw [hsupplies.owner]
    exact h.class? hsupplies.registered
  · exact (Class.declaredMethod?_eq_some hsupplies.declared).1
  · exact h.hierarchy.not_looksLike_of_above hb (habove.trans_left hfurther)

theorem Machine.Consistent.bound_above (h : m.Consistent path) (hb : b ∈ m.registered)
    (ht : t ∈ m.registered) (hne : t ≠ b) (hlooks : b.looksLike t = true)
    (hresolved : t.method? name descriptor = some resolved)
    (hbind : Exec.bindSuper b t resolved = .ok method) : ∃ d, m.DeclaresApart b method d := by
  unfold Exec.bindSuper at hbind
  split at hbind
  · split at hbind
    next => cases hbind
    next parent hparent =>
        split at hbind
        next => cases hbind
        next hbound =>
            cases hbind
            exact h.declared_above hb (.single (.inl hparent)) hbound
  · cases hbind
    have habove := h.hierarchy.inherits_of_looksLike hb ht hlooks
    rcases Relation.reflTransGen_iff_eq_or_transGen.mp habove with heq | hstrict
    · exact absurd heq hne
    · exact h.declared_above hb hstrict hresolved

end

/-!
# Resolution
-/

theorem ClassPool.resolveMethod_eq_ok {load : Loader} {p : ClassPool} {index : UInt16}
    {method : Method} {m m' : Machine} (h : p.resolveMethod load index m = .ok method m') :
    ∃ member c, p.member index = .ok member ∧
      load.loadClass (if Descriptor.isArray member.owner then rootName else member.owner) m =
        .ok c m' ∧ c.method? member.name member.descriptor = some method := by
  unfold resolveMethod at h
  rcases bind_eq_ok h with ⟨member, m₁, hlift, hrest⟩
  rcases liftMalformed_eq_ok hlift with ⟨hmember, rfl⟩
  rcases bind_eq_ok hrest with ⟨c, m₂, hload, hsearch⟩
  refine ⟨member, c, hmember, ?_⟩
  cases hkind : c.isInterface != member.ofInterface with
  | true =>
      simp only [hkind, if_true] at hsearch
      cases hsearch
  | false =>
      simp only [hkind, Bool.false_eq_true, if_false] at hsearch
      cases hmethod : c.method? member.name member.descriptor with
      | none =>
          rw [hmethod] at hsearch
          cases hsearch
      | some found =>
          rw [hmethod] at hsearch
          cases hsearch
          exact ⟨hload, rfl⟩

section

variable {host : Host} {fuel : Nat} {m m' : Machine} {c t : Class} {name : String}

theorem Host.not_isArray_of_loadClass (h : (host.load fuel).loadClass name m = .ok c m') :
    Descriptor.isArray name = false := by
  cases harray : Descriptor.isArray name with
  | false => rfl
  | true =>
      cases fuel with
      | zero => cases h
      | succ fuel =>
          rcases bind_eq_ok h with ⟨l, m₁, hload, hclass⟩
          rw [Host.load_succ, Host.loadVia, loadWith_array harray] at hload
          rcases bind_eq_ok hload with ⟨a, m₂, -, hpure⟩
          cases hpure
          cases hclass

theorem Machine.Founded.loadClass (hnatives : ∀ C, host.natives.Keeps C)
    (hm : m.Founded host.path) (h : (host.load fuel).loadClass name m = .ok c m') :
    m'.Founded host.path ∧ Extends m m' ∧ m'.class? name = some c := by
  have hends := (Charter.loadClass_alike ((oracle_serves hnatives fuel).load False) name m
    ⟨hm, False.elim⟩ trivial).2
  have hload : ((host.oracle fuel).load).loadClass name m = .ok c m' := h
  rw [hload] at hends
  rcases hends with ⟨hinv, hrel, ⟨s, hs, -⟩, -⟩
  exact ⟨hinv.1, hrel.1, class?_of_standing? hs⟩

/-- A reference to a supertype leads to a method that is declared above the caller. -/
theorem Exec.Binds.declared_apart (hnatives : ∀ C, host.natives.Keeps C)
    (hm : m.Founded host.path) {caller : Class} (hcaller : m.HasClass caller) {p : ClassPool}
    {index : UInt16} {method : Method} (h : Binds (host.load fuel) caller p index m method m')
    {member : MemberRef} (hmember : p.member index = .ok member)
    (ht : m'.class? member.owner = some t) (hne : t ≠ caller)
    (hlooks : caller.looksLike t = true) : ∃ d, m'.DeclaresApart caller method d := by
  rcases h.found with ⟨member', resolved, referenced, m₁, hmember', hresolve, hload, hbind⟩
  cases hmember.symm.trans hmember'
  rcases ClassPool.resolveMethod_eq_ok hresolve with ⟨member', c, hmember', hfirst, hmethod⟩
  cases hmember.symm.trans hmember'
  rw [Host.not_isArray_of_loadClass hload, if_neg Bool.false_ne_true] at hfirst
  rcases hm.loadClass hnatives hfirst with ⟨hm₁, hext₁, hc⟩
  rcases hm₁.loadClass hnatives hload with ⟨hm', hext, hreferenced⟩
  -- the class that was searched is the one that is loaded again for the check of the caller
  cases hreferenced.symm.trans (hext.evolves.class? hc)
  cases hreferenced.symm.trans ht
  have hregistered := hext.hasClass (hext₁.hasClass hcaller)
  exact hm'.consistent.bound_above (mem_registered hregistered) (mem_registered ht) hne hlooks
    hmethod hbind

end

/-!
# The next instruction
-/

def Frame.Next (f : Frame) (i : Instruction) (behind : Nat) : Prop :=
  ∃ opcode, f.method.code[f.pc]? = some opcode ∧
    Instruction.decode f.method.code opcode (f.pc + 1) = .ok (i, behind)

namespace Exec

variable {f : Frame}

theorem fetch_of_code {opcode : UInt8} (hcode : f.method.code[f.pc]? = some opcode) (m : Machine) :
    fetch ⟨f, m⟩ = .ok opcode ⟨{ f with current := f.pc }, m⟩ := by
  unfold fetch
  rw [get_bind]
  simp only [hcode]
  rfl

theorem note_apply (tracing : Bool) (opcode : UInt8) (f : Frame) (m : Machine) :
    ∃ log, ∀ stack, note tracing opcode ⟨{ f with stack }, m⟩ =
      .ok () ⟨{ f with stack }, { m with log }⟩ := by
  cases tracing with
  | false => exact ⟨m.log, fun _ => rfl⟩
  | true =>
      exact ⟨(m.record .trace
        (f.method.label ++ " [" ++ toString f.current ++ "] " ++ Opcode.mnemonic opcode)).log,
        fun _ => rfl⟩

/-- Up to its execution an instruction leaves traces in the log and moves the addresses, with any
stack. -/
theorem step_eq_execute {i : Instruction} {behind : Nat} (h : f.Next i behind) (load : Loader)
    (tracing : Bool) (m : Machine) :
    ∃ log, ∀ stack, step load tracing ⟨{ f with stack }, m⟩ =
      i.execute load ⟨{ f with stack, current := f.pc, pc := behind }, { m with log }⟩ := by
  rcases h with ⟨opcode, hcode, hdecode⟩
  have hmove (stack : OperandStack) (m : Machine) :
      Exec.decode opcode ⟨{ f with stack, current := f.pc }, m⟩ =
        .ok i ⟨{ f with stack, current := f.pc, pc := behind }, m⟩ := by
    unfold Exec.decode
    rw [get_bind]
    simp only [hdecode]
    rfl
  rcases note_apply tracing opcode { f with current := f.pc } m with ⟨log, hnote⟩
  refine ⟨log, fun stack => ?_⟩
  have hfetch := fetch_of_code (f := { f with stack }) hcode m
  unfold step
  rw [bind_of_ok hfetch, bind_of_ok (hnote stack), bind_of_ok (hmove stack _)]

end Exec

/-!
# Instructions that can be reached
-/

section

variable {host : Host} {fuel : Nat} {m : Machine}

/-- An instruction that calls a method directly, by a reference to a supertype of the caller, calls
one that is declared neither by the caller nor by a subtype of it, and calls the same one on every
object. -/
theorem Host.Underway.super_call (hnatives : ∀ C, host.natives.Keeps C) {f : Frame}
    {rest : List Frame} {result : Option Value}
    (h : host.Underway fuel (.step (f :: rest) result) m) {index : UInt16} {behind : Nat}
    (hnext : f.Next (.invokeSpecial index) behind) {member : MemberRef}
    (hmember : f.pool.member index = .ok member) {method : Method} {a : Activation}
    (hcall : Exec.step (host.load fuel) host.tracing ⟨f, m⟩ = .ok (.call method) a) {t : Class}
    (ht : a.machine.class? member.owner = some t) (hne : t ≠ f.cls)
    (hlooks : f.cls.looksLike t = true) :
    (∃ d, a.machine.DeclaresApart f.cls method d) ∧
      ∀ stack address, stack.slots[method.signature.argumentSlots]? =
        some (.reference (some address)) →
          ∃ a', Exec.step (host.load fuel) host.tracing ⟨{ f with stack }, m⟩ =
            .ok (.call method) a' := by
  rcases h.founded hnatives with ⟨hm, -, hknown⟩
  have hcaller : m.HasClass f.cls := (hknown f List.mem_cons_self).2
  rcases Exec.step_eq_execute hnext (host.load fuel) host.tracing m with ⟨log, hstep⟩
  have hexecute := (hstep f.stack).symm.trans hcall
  rcases Exec.invokeSpecial_iff.mp hexecute with ⟨hbinds, -, -⟩
  constructor
  · have hlogged : ({ m with log } : Machine).Founded host.path :=
      hm.works ⟨rfl, rfl, rfl, rfl⟩ (hm.grounded.congr rfl rfl rfl rfl)
    exact hbinds.declared_apart hnatives hlogged hcaller hmember ht hne hlooks
  · intro stack address hslot
    refine ⟨⟨{ f with stack, current := f.pc, pc := behind }, a.machine⟩, ?_⟩
    rw [hstep stack]
    exact Exec.invokeSpecial_iff.mpr ⟨hbinds, rfl, address, hslot⟩

end

namespace SuperOverride

/-!
Classes `A`, `B` and `C`, each a subclass of the one before and each with a method of the same name
and descriptor.  A method of `B` calls the one of `A` on an object of class `C`.
-/

def names : List Constant := [.utf8 "m", .utf8 "()I"]

def member (instruction : UInt8) : MemberLayout :=
  ⟨0x0001, 8, 9, [.code 5 ⟨1, 1, [instruction, 0xAC], []⟩ []]⟩

/-- `aload_0; invokespecial A.m; ireturn` -/
def viaSuper : MemberLayout :=
  ⟨0x0001, 12, 9, [.code 5 ⟨1, 1, [0x2A, 0xB7, 0, 11, 0xAC], []⟩ []]⟩

def host : Host :=
  Sample.host
    [("A", Sample.file "A" (some rootName) names [member 0x04]),
      ("B", Sample.file "B" (some "A")
        (names ++ [.nameAndType 8 9, .methodRef 4 10, .utf8 "viaSuper"]) [member 0x05, viaSuper]),
      ("C", Sample.file "C" (some "B") names [member 0x06])]

def machine : Machine := endOf ((Request.newObject "C").run host 8) Machine.empty

def ready (method : Method) : Option Thread :=
  match Thread.pushFrame host method [.reference (some 0)] ⟨machine, [], none⟩ with
  | .ok _ t =>
      match Thread.step host (host.load 8) 0 t with
      | .ok _ t' => some t'
      | .error _ _ => none
  | .error _ _ => none

def calling : Option Thread := do
  let b ← machine.class? "B"
  let method ← b.method? "viaSuper" "()I"
  if method.isNative || method.isAbstract || method.argumentSlots != 1 then none
  ready method

def called (t : Thread) : Option (Frame × MemberRef × Class × Method × Activation) := do
  let f ← t.frames.head?
  let opcode ← f.method.code[f.pc]?
  match Instruction.decode f.method.code opcode (f.pc + 1) with
  | .ok (.invokeSpecial index, _) =>
      match f.pool.member index, Exec.step (host.load 8) host.tracing ⟨f, t.machine⟩ with
      | .ok member, .ok (.call method) a =>
          return (f, member, ← a.machine.class? member.owner, method, a)
      | _, _ => none
  | _ => none

theorem eq_of_ready {method : Method} {t : Thread} (h : ready method = some t) :
    ∃ t₀, Thread.pushFrame host method [.reference (some 0)] ⟨machine, [], none⟩ = .ok () t₀ ∧
      t₀.frames ≠ [] ∧ Thread.step host (host.load 8) 0 t₀ = .ok () t := by
  unfold ready at h
  split at h
  next t₀ hpush =>
      split at h
      next hstep =>
          cases h
          exact ⟨t₀, hpush, Thread.frames_of_pushFrame hpush, hstep⟩
      next => cases h
  next => cases h

theorem eq_of_called {t : Thread} {f : Frame} {member : MemberRef} {c : Class} {method : Method}
    {a : Activation} (h : called t = some (f, member, c, method, a)) :
    ∃ rest index behind, t.frames = f :: rest ∧ f.Next (.invokeSpecial index) behind ∧
      f.pool.member index = .ok member ∧
        Exec.step (host.load 8) host.tracing ⟨f, t.machine⟩ = .ok (.call method) a ∧
          a.machine.class? member.owner = some c := by
  unfold called at h
  rcases Option.bind_eq_some_iff.mp h with ⟨f', hframe, h⟩
  rcases Option.bind_eq_some_iff.mp h with ⟨opcode, hcode, h⟩
  split at h
  next index behind hdecode =>
      split at h
      next hmember hcall =>
          rcases Option.bind_eq_some_iff.mp h with ⟨c', hclass, h⟩
          cases h
          rcases List.head?_eq_some_iff.mp hframe with ⟨rest, hframes⟩
          exact ⟨rest, index, behind, hframes, ⟨opcode, hcode, hdecode⟩, hmember, hcall, hclass⟩
      next => cases h
  next => cases h

theorem call_facts :
    TypedHeap.ended ((Request.newObject "C").run host 8 Machine.empty) = true ∧
      (calling.bind called).map (fun (f, _, c, method, a) =>
        (f.cls.name, f.stack.slots, a.machine.objects.toList.map Object.className, c.name,
          method.label, f.cls.looksLike c)) =
        some ("B", [.reference (some 0)], ["C"], "A", "A.m()I", true) := by
  decide +kernel

theorem machine_used : host.Used machine :=
  .request (.newObject "C") 8 .empty trivial (TypedHeap.finishes_of_ended call_facts.1)

theorem underway_of_calling {t : Thread} (h : calling = some t) (hframes : t.frames ≠ []) :
    host.Underway 8 (.step t.frames t.result) t.machine := by
  unfold calling at h
  rcases Option.bind_eq_some_iff.mp h with ⟨b, hb, h⟩
  rcases Option.bind_eq_some_iff.mp h with ⟨method, hmethod, h⟩
  have hknown : machine.HasClass b := by
    rw [← class?_name hb] at hb
    exact hb
  have hfounded := machine_used.founded Native.library_keeps
  split at h
  · cases h
  next hplain =>
      simp only [Bool.or_eq_true, bne_iff_ne, not_or, Bool.not_eq_true, ne_eq, not_not] at hplain
      rcases hplain with ⟨⟨hnative, habstract⟩, hsize⟩
      rcases eq_of_ready h with ⟨t₀, hpush, hframes₀, hstep⟩
      have htakes : method.Takes [.reference (some 0)] := ⟨hnative, habstract, hsize.symm⟩
      exact .step (.run 8 method _ machine_used (hfounded.closed.method hknown hmethod))
        (.step (.enter htakes hpush) hframes₀ (.start 8 _ _) hstep) hframes

/-- The method of `A` is called from `B`, on the object of class `C` and on every other one. -/
theorem overridden_method_called :
    ∃ f rest result m index behind member method a t,
      host.Underway 8 (.step (f :: rest) result) m ∧ f.Next (.invokeSpecial index) behind ∧
        f.pool.member index = .ok member ∧
          Exec.step (host.load 8) host.tracing ⟨f, m⟩ = .ok (.call method) a ∧
            a.machine.class? member.owner = some t ∧ t ≠ f.cls ∧ f.cls.looksLike t = true ∧
              f.cls.name = "B" ∧ f.stack.slots = [.reference (some 0)] ∧
                a.machine.objects.toList.map Object.className = ["C"] ∧ method.label = "A.m()I" ∧
                (∃ d, a.machine.DeclaresApart f.cls method d) ∧
                  ∀ stack address, stack.slots[method.signature.argumentSlots]? =
                    some (.reference (some address)) →
                      ∃ a', Exec.step (host.load 8) host.tracing ⟨{ f with stack }, m⟩ =
                        .ok (.call method) a' := by
  rcases Option.map_eq_some_iff.mp call_facts.2 with ⟨⟨f, member, c, method, a⟩, hcalled, hnames⟩
  rcases Option.bind_eq_some_iff.mp hcalled with ⟨t, hcalling, hcalled⟩
  rcases eq_of_called hcalled with ⟨rest, index, behind, hframes, hnext, hmember, hcall, hclass⟩
  have hunderway := underway_of_calling hcalling (hframes ▸ List.cons_ne_nil f rest)
  rw [hframes] at hunderway
  simp only [Prod.mk.injEq] at hnames
  rcases hnames with ⟨hcaller, hstack, hobjects, hnamed, hlabel, hlooks⟩
  have hne : c ≠ f.cls := by
    rintro rfl
    exact absurd (hcaller.symm.trans hnamed) (by decide)
  exact ⟨f, rest, t.result, t.machine, index, behind, member, method, a, c, hunderway, hnext,
    hmember, hcall, hclass, hne, hlooks, hcaller, hstack, hobjects, hlabel,
    hunderway.super_call Native.library_keeps hnext hmember hcall hclass hne hlooks⟩

end SuperOverride

end Bytecode
