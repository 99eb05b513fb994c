import Bytecode.Proofs.Class.Assignability
import Bytecode.Proofs.TypeObjects.Order

/-!
# One object for every type

In the course of a history, whatever is carried out and however it nests, all requests for the
object of a type are answered with one object, which stands for that type and for no other.
-/

namespace Bytecode

open Machine TypeObjects

/-- In the course of the events a request returns an address: it is begun after ordinary work in the
machine of an event, and ordinary work leads from its end to the machine of an event.  It need not
be one of the requests that make up the events; one that is made at the very moment of an event
counts too, where it leaves the machine of that event behind. -/
def Host.Returned (host : Host) (events : List Event) (request : Loader → MachineM Nat)
    (address : Nat) : Prop :=
  ∃ a ∈ events, ∃ e ∈ events, ∃ fuel m m', a.machine.Spares m ∧
    request (host.load fuel) m = .ok address m' ∧ m'.Spares e.machine

section

variable {host : Host} {fuel : Nat} {events : List Event} {name : String} {address : Nat}
  {m m' : Machine}

namespace TypeObjects

/-- What a request for the object of a type returns is in the place of the type. -/
theorem place?_of_typeObject (hnatives : host.natives.Discreet)
    (h : typeObject (host.load fuel) name m = .ok address m') :
    m'.place? (TypePlace.ofName name) = some (some address) := by
  have hends := ((typeObject_talks name m trivial trivial).outcome (Conduct.manner_chains _)
    (honors hnatives fuel)).1
  change discretion.Ends _ m (typeObject (host.load fuel) name m) at hends
  rw [h] at hends
  exact hends.2.2

theorem occupant_of_place? {p : TypePlace} (load : Loader)
    (h : m.place? p = some (some address)) : occupant load p m = .ok address m := by
  unfold occupant
  rw [get_bind, h]
  rfl

/-!
# The last event
-/

theorem Upheld.of_append {inner : List Event} (h : Upheld m (events ++ inner)) : Upheld m events :=
  ⟨fun e he => h.after e (List.mem_append_left inner he), (List.pairwise_append.mp h.ordered).1⟩

variable {e : Event} (hnatives : host.natives.Discreet)
  (h : Upheld Machine.empty (events ++ [e]))

include h

theorem Upheld.last_faithful : e.machine.Faithful :=
  (h.after e List.mem_concat_self).faithful .empty

include hnatives

/-- At the last event, whatever has been returned is in its place. -/
theorem Upheld.place?_of_returned
    (hreturned : host.Returned (events ++ [e]) (typeObject · name) address) :
    e.machine.place? (TypePlace.ofName name) = some (some address) := by
  obtain ⟨-, -, b, hb, fuel, m, m', -, hanswer, hspares⟩ := hreturned
  have hplace := place?_of_typeObject hnatives hanswer
  rw [← hspares.places] at hplace
  rcases List.mem_append.mp hb with hb | hb
  · exact ((List.pairwise_append.mp h.ordered).2.2 b hb e (List.mem_singleton_self e)).stays hplace
  · rwa [← List.mem_singleton.mp hb]

/-- At the last event, whatever has been returned stands for the type it was requested for. -/
theorem Upheld.reflected?_of_returned
    (hreturned : host.Returned (events ++ [e]) (typeObject · name) address) :
    e.machine.reflected? address = some name := by
  have hstands := h.last_faithful.reflected (h.place?_of_returned hnatives hreturned)
  rwa [TypePlace.name_ofName] at hstands

theorem Upheld.returned_eq_iff {name' : String} {address' : Nat}
    (hreturned : host.Returned (events ++ [e]) (typeObject · name) address)
    (hreturned' : host.Returned (events ++ [e]) (typeObject · name') address') :
    address = address' ↔ name = name' := by
  constructor
  · rintro rfl
    have hstands := h.reflected?_of_returned hnatives hreturned
    rw [h.reflected?_of_returned hnatives hreturned'] at hstands
    exact (Option.some.inj hstands).symm
  · rintro rfl
    have hplace := h.place?_of_returned hnatives hreturned
    rw [h.place?_of_returned hnatives hreturned'] at hplace
    exact (Option.some.inj (Option.some.inj hplace)).symm

theorem Upheld.isPrimitive_iff_returned :
    e.machine.isPrimitiveClassObject address = true ↔
      ∃ name ∈ primitiveTypes,
        host.Returned (events ++ [e]) (primitiveClassObject · name) address := by
  rw [h.last_faithful.isPrimitive_iff]
  refine exists_congr fun name => and_congr_right fun hname => ?_
  constructor
  · intro hplace
    -- a request in the machine of the last event leaves it as it is
    refine ⟨e, List.mem_concat_self, e, List.mem_concat_self, 0, e.machine, e.machine, .refl _, ?_,
      .refl _⟩
    show primitiveClassObject (host.load 0) name e.machine = _
    rw [primitiveClassObject_eq _ hname]
    exact occupant_of_place? _ hplace
  · intro hreturned
    rw [← TypePlace.ofName_primitive hname]
    apply h.place?_of_returned hnatives
    simpa only [typeObject_primitive _ hname] using hreturned

end TypeObjects

/-- All requests for the object of a type return the same object, and requests for the objects of
different types return different ones.  From then on the object stands for the type; and the objects
of primitive types are those that requests for them return, where a request that is made at that
very moment counts. -/
theorem History.type_objects_unique (hnatives : host.natives.Discreet)
    (h : History host Spares events) :
    (∀ name name' x x', host.Returned events (typeObject · name) x →
      host.Returned events (typeObject · name') x' → (x = x' ↔ name = name')) ∧
    ∀ before e after, events = before ++ e :: after →
      (∀ name x, host.Returned (before ++ [e]) (typeObject · name) x →
        e.machine.reflected? x = some name) ∧
      ∀ x, e.machine.isPrimitiveClassObject x = true ↔
        ∃ name ∈ primitiveTypes, host.Returned (before ++ [e]) (primitiveClassObject · name) x := by
  have hupheld := history_upheld hnatives h
  constructor
  · intro name name' x x' hx hx'
    obtain ⟨init, last, rfl⟩ : ∃ init last, events = init ++ [last] := by
      obtain ⟨-, -, b, hb, -⟩ := hx
      exact ⟨_, _, (List.dropLast_append_getLast (List.ne_nil_of_mem hb)).symm⟩
    exact hupheld.returned_eq_iff hnatives hx hx'
  · rintro before e after rfl
    rw [List.append_cons] at hupheld
    have hlast := hupheld.of_append
    exact ⟨fun name x hx => hlast.reflected?_of_returned hnatives hx,
      fun x => hlast.isPrimitive_iff_returned hnatives⟩

end

/-!
# An object that is made a second time
-/

namespace Reentry

/-- The initializer of the class of class objects asks for the object of `app/Main`. -/
def host : Host :=
  Sample.host
    [(classClassName, Sample.file classClassName (some rootName) [.utf8 "app/Main", .classRef 8]
        -- `ldc app/Main; pop; return`
        [Sample.initializer [0x12, 9, 0x57, 0xB1]]),
      ("app/Main", Sample.file "app/Main" (some rootName) [] [])]

def next (name : String) (m : Machine) : Machine :=
  endOf (typeObject (host.load 16) name) m

def first : Machine := next "app/Main" Machine.empty

def second : Machine := next "int" first

def third : Machine := next "app/Main" second

variable {name : String} {address : Nat} {m : Machine} {events : List Event}

def addressOf {σ : Type} : EStateM.Result Halt σ Nat → Option Nat
  | .ok address _ => some address
  | .error _ _ => none

theorem eq_ok_of_addressOf
    (h : addressOf (typeObject (host.load 16) name m) = some address) :
    typeObject (host.load 16) name m = .ok address (next name m) := by
  unfold next endOf
  cases hx : typeObject (host.load 16) name m with
  | ok a m' =>
      rw [hx] at h
      rw [Option.some.inj h]
  | error e m' =>
      rw [hx] at h
      cases h

/-- While the first request is carried out, two objects are made for the same type. -/
theorem facts :
    (addressOf (typeObject (host.load 16) "app/Main" Machine.empty) = some 1 ∧
        addressOf (typeObject (host.load 16) "int" first) = some 3 ∧
          addressOf (typeObject (host.load 16) "app/Main" second) = some 1) ∧
      first.reflected? 2 = some "app/Main" := by
  decide +kernel

theorem rests_next {writes : Machine → Machine → Prop} (h : Rests host writes events m)
    (hanswer : addressOf (typeObject (host.load 16) name m) = some address) :
    Rests host writes (events ++ [.rested (next name m)]) (next name m) := by
  have hend : Finishes ((Request.typeObject name).run host 16) m (next name m) := by
    refine .inl ⟨(), ?_⟩
    show EStateM.map _ (typeObject (host.load 16) name) m = _
    rw [EStateM.map, eq_ok_of_addressOf hanswer]
  have hrests := Rests.request h (.start 16 (.request (.typeObject name)) m) hend
  rwa [List.append_nil] at hrests

def course : List Event :=
  [.rested Machine.empty, .rested first, .rested second, .rested third]

theorem history : History host Spares course :=
  (rests_next (rests_next (rests_next .empty facts.1.1) facts.1.2.1) facts.1.2.2).history

theorem returned (hbefore : .rested m ∈ events) (hafter : .rested (next name m) ∈ events)
    (hanswer : addressOf (typeObject (host.load 16) name m) = some address) :
    host.Returned events (typeObject · name) address :=
  ⟨_, hbefore, _, hafter, 16, m, next name m, .refl m, eq_ok_of_addressOf hanswer, .refl _⟩

theorem main_returned : host.Returned course (typeObject · "app/Main") 1 := by
  refine returned (m := Machine.empty) ?_ ?_ facts.1.1
  · exact List.mem_cons_self
  · show .rested first ∈ course
    exact List.mem_cons_of_mem _ List.mem_cons_self

theorem int_returned : host.Returned course (primitiveClassObject · "int") 3 := by
  have hname : "int" ∈ primitiveTypes := by decide
  simp only [← typeObject_primitive _ hname]
  refine returned (m := first) ?_ ?_ facts.1.2.1
  · exact List.mem_cons_of_mem _ List.mem_cons_self
  · show .rested second ∈ course
    exact List.mem_cons_of_mem _ (List.mem_cons_of_mem _ List.mem_cons_self)

/-- The second object that is made for a type is never returned. -/
theorem second_object_kept_back :
    first.reflected? 2 = some "app/Main" ∧ host.Returned course (typeObject · "app/Main") 1 ∧
      ¬ host.Returned course (typeObject · "app/Main") 2 ∧
        third.reflected? 1 = some "app/Main" ∧ third.isPrimitiveClassObject 3 = true ∧
          third.isPrimitiveClassObject 1 = false := by
  obtain ⟨hunique, hfaithful⟩ := history.type_objects_unique Native.library_discreet
  obtain ⟨hstands, hprimitive⟩ :=
    hfaithful [.rested Machine.empty, .rested first, .rested second] (.rested third) [] rfl
  simp only [Event.machine] at hstands hprimitive
  refine ⟨facts.2, main_returned, fun hother => ?_, hstands _ 1 main_returned, ?_, ?_⟩
  · exact absurd ((hunique _ _ _ _ main_returned hother).mpr rfl) (by decide)
  · exact (hprimitive 3).mpr ⟨"int", by decide, int_returned⟩
  · refine Bool.eq_false_iff.mpr fun hone => ?_
    obtain ⟨name, hname, hreturned⟩ := (hprimitive 1).mp hone
    simp only [← typeObject_primitive _ hname] at hreturned
    rw [← (hunique _ _ _ _ main_returned hreturned).mp rfl] at hname
    exact absurd hname (by decide)

end Reentry

end Bytecode
