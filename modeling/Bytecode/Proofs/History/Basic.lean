import Bytecode.Proofs.Dialogue.Session
import Bytecode.Proofs.Loading.Reachable

/-!
# Histories

What happens to a machine, in order: the questions that tasks ask, their answers, instructions that
are executed, and the rest between the requests of a host.  A history can break off at any point.
-/

namespace Bytecode

/-!
# Tasks
-/

/-- Something that is carried out on a machine. -/
inductive Task where
  | request (r : Request)
  | load (name : String)
  | run (method : Method) (arguments : List Value)
  /-- One instruction of a thread with these frames. -/
  | step (frames : List Frame) (result : Option Value)

def Query.task : Query → Task
  | load name => .load name
  | run method arguments => .run method arguments

namespace Task

def via (host : Host) (fuel : Nat) (o : Oracle) : Task → MachineM Unit
  | request r => r.via o
  | load name => discard (Machine.loadWith host.path o.load o.initializer name)
  | run method arguments => discard (Thread.invoke host o.load fuel method arguments)
  | step frames result => fun m =>
      Terms.mapState Thread.machine (Thread.step host o.load 0 ⟨m, frames, result⟩)

def outcome (host : Host) (fuel : Nat) (x : Task) (m : Machine) :
    EStateM.Result Halt Machine Unit :=
  x.via host fuel (host.oracle fuel) m

def Asks (host : Host) (fuel : Nat) (x : Task) (m : Machine) (known : Set (Query × Machine))
    (q : Query) (m' : Machine) : Prop :=
  Bytecode.Asks (fun o => x.via host fuel o m) (host.oracle fuel) known q m'

end Task

/-- The fuel that is left for the task that answers a question. -/
inductive Query.Within : Query → Nat → Nat → Prop where
  | load (name : String) (fuel : Nat) : Within (.load name) (fuel + 1) fuel
  | run (method : Method) (arguments : List Value) (fuel : Nat) :
      Within (.run method arguments) fuel fuel

/-!
# Events
-/

inductive Event where
  /-- A task asks a question. -/
  | asked (task : Task) (q : Query) (m : Machine)
  /-- A question that was asked in the first machine is answered in the second. -/
  | answered (q : Query) (m m' : Machine)
  /-- An instruction has been executed. -/
  | executed (m : Machine)
  /-- Nothing is being carried out. -/
  | rested (m : Machine)

namespace Event

def machine : Event → Machine
  | asked _ _ m => m
  | answered _ _ m => m
  | executed m => m
  | rested m => m

/-- The loader starts the static initializer of a class. -/
def Starts (name : String) : Event → Prop
  | asked (.load n) (.run _ _) _ => n = name
  | _ => False

end Event

/-!
# Histories
-/

/-- A method that runs in a frame of its own when it is called with the arguments. -/
structure Method.Takes (method : Method) (arguments : List Value) : Prop where
  native : method.isNative = false
  abstract : method.isAbstract = false
  size : (OperandStack.ofValues arguments).size = method.argumentSlots

/-- How far a task has come. -/
inductive Stage where
  /-- The questions asked so far are answered. -/
  | going (known : Set (Query × Machine))
  /-- The last question is not answered yet. -/
  | waiting (known : Set (Query × Machine)) (q : Query) (m : Machine)
  /-- The thread is about to execute an instruction. -/
  | running (t : Thread)
  /-- Something within the task is being carried out. -/
  | within

/-- The events of a task that was started on a machine. -/
inductive Unfolds (host : Host) : Nat → Task → Machine → Stage → List Event → Prop where
  | start (fuel : Nat) (x : Task) (m : Machine) : Unfolds host fuel x m (.going ∅) []
  | ask {fuel : Nat} {x : Task} {m m' : Machine} {known : Set (Query × Machine)} {q : Query}
      {events : List Event} (h : Unfolds host fuel x m (.going known) events)
      (hasks : x.Asks host fuel m known q m') :
      Unfolds host fuel x m (.waiting known q m') (events ++ [.asked x q m'])
  | answer {fuel fuel' : Nat} {x : Task} {m m' : Machine} {known : Set (Query × Machine)}
      {q : Query} {stage : Stage} {events inner : List Event}
      (h : Unfolds host fuel x m (.waiting known q m') events) (hfuel : q.Within fuel fuel')
      (hinner : Unfolds host fuel' q.task m' stage inner)
      (hgoes : ¬ Stops (host.oracle fuel q m')) :
      Unfolds host fuel x m (.going (insert (q, m') known))
        (events ++ inner ++ [.answered q m' (lastState (host.oracle fuel q m'))])
  | answering {fuel fuel' : Nat} {x : Task} {m m' : Machine} {known : Set (Query × Machine)}
      {q : Query} {stage : Stage} {events inner : List Event}
      (h : Unfolds host fuel x m (.waiting known q m') events) (hfuel : q.Within fuel fuel')
      (hinner : Unfolds host fuel' q.task m' stage inner) :
      Unfolds host fuel x m .within (events ++ inner)
  | enter {fuel : Nat} {method : Method} {arguments : List Value} {m : Machine} {t : Thread}
      (htakes : method.Takes arguments)
      (hpush : Thread.pushFrame host method (OperandStack.ofValues arguments).toList ⟨m, [], none⟩ =
        .ok () t) :
      Unfolds host fuel (.run method arguments) m (.running t) []
  | step {fuel : Nat} {x : Task} {m : Machine} {t t' : Thread} {stage : Stage}
      {events inner : List Event} (h : Unfolds host fuel x m (.running t) events)
      (hframes : t.frames ≠ [])
      (hinner : Unfolds host fuel (.step t.frames t.result) t.machine stage inner)
      (hstep : Thread.step host (host.load fuel) 0 t = .ok () t') :
      Unfolds host fuel x m (.running t') (events ++ inner ++ [.executed t'.machine])
  | stepping {fuel : Nat} {x : Task} {m : Machine} {t : Thread} {stage : Stage}
      {events inner : List Event} (h : Unfolds host fuel x m (.running t) events)
      (hframes : t.frames ≠ [])
      (hinner : Unfolds host fuel (.step t.frames t.result) t.machine stage inner) :
      Unfolds host fuel x m .within (events ++ inner)

/-- The events up to a rest.  Between requests, the host may change the machine as `writes` says. -/
inductive Rests (host : Host) (writes : Machine → Machine → Prop) :
    List Event → Machine → Prop where
  | empty : Rests host writes [.rested Machine.empty] Machine.empty
  | write {m m' : Machine} {events : List Event} (h : Rests host writes events m)
      (hwrite : writes m m') : Rests host writes (events ++ [.rested m']) m'
  | request {fuel : Nat} {m m' : Machine} {r : Request} {stage : Stage} {events inner : List Event}
      (h : Rests host writes events m) (hinner : Unfolds host fuel (.request r) m stage inner)
      (hend : Finishes (r.run host fuel) m m') :
      Rests host writes (events ++ inner ++ [.rested m']) m'

/-- The events of some history: rests, and a request that may be under way. -/
def History (host : Host) (writes : Machine → Machine → Prop) (events : List Event) : Prop :=
  ∃ fuel r m stage before inner, Rests host writes before m ∧
    Unfolds host fuel (.request r) m stage inner ∧ events = before ++ inner

end Bytecode
