import Bytecode.ClassPath.Search
import Bytecode.Proofs.Loading.Reachable

/-!
# Circularity

A load reports a circularity when it is asked for a class that is being loaded and is not registered
yet.  Then the class is its own ancestor, or it waits for an ancestor whose initialization asks for
it.  The second can happen to a class that is on no cycle at all.
-/

namespace Bytecode

open Machine

/-!
# Class paths
-/

def ClassPath.Ordinary (path : ClassPath) : Prop :=
  ∀ records name, FailsWith Fault.Ordinary (path records name)

theorem ClassPath.Ordinary.plain {path : ClassPath} (h : path.Ordinary) : path.Plain :=
  fun records name f hf => (h records name f hf).plain

theorem ClassPath.ofRows_ordinary (rows : List (String × List UInt8)) :
    (ClassPath.ofRows rows).Ordinary := by
  intro log name f hf
  unfold ClassPath.ofRows at hf
  split at hf
  next => cases hf
  next =>
      cases hf
      exact nofun

theorem ClassPath.ofRows_plain (rows : List (String × List UInt8)) :
    (ClassPath.ofRows rows).Plain :=
  (ofRows_ordinary rows).plain

theorem Source.zipFault_ordinary (path : String) (e : Archive.ZipError) :
    (Source.zipFault path e).Ordinary := by
  cases e <;> exact nofun

theorem Source.find_fails (t : FileTree) (name : String) (source : Source) :
    FailsWith Fault.Ordinary (source.find t name) := by
  intro f hf
  cases source with
  | directory root =>
      unfold Source.find at hf
      dsimp only at hf
      split at hf <;> cases hf <;> exact nofun
  | archive path zip =>
      unfold Source.find at hf
      dsimp only at hf
      split at hf
      next =>
          cases hf
          exact nofun
      next =>
          split at hf
          next => cases hf
          next e _ =>
              cases hf
              exact zipFault_ordinary path e

theorem SearchPath.find_fails (t : FileTree) (name : String) (path : SearchPath) :
    FailsWith Fault.Ordinary (path.find t name) := by
  induction path with
  | nil =>
      intro f hf
      cases hf
      exact nofun
  | cons source rest ih =>
      intro f hf
      unfold SearchPath.find at hf
      split at hf
      next => exact ih f hf
      next => exact source.find_fails t name f hf

theorem SearchPath.ordinary (path : SearchPath) (files : Array Record → FileTree) :
    ClassPath.Ordinary fun records name => path.find (files records) name :=
  fun records name => path.find_fails (files records) name

theorem SearchPath.plain (path : SearchPath) (files : Array Record → FileTree) :
    ClassPath.Plain fun records name => path.find (files records) name :=
  (path.ordinary files).plain

/-!
# Why a circularity is reported
-/

namespace Host

variable {host : Host} {name : String} {m : Machine}

/-- The loader can be asked for the type: it is, or code is running, which can ask for any. -/
def CanAsk (host : Host) (name : String) (m : Machine) : Prop :=
  host.Asked name m ∨ ∃ t, host.Running t ∧ t.machine = m

theorem CanAsk.inv (hnatives : host.natives.Lawful) (hpath : host.path.Plain)
    (h : host.CanAsk name m) :
    (order host.path True).inv m ∧ m.Justified host.path name := by
  rcases h with hasked | ⟨t, hrun, rfl⟩
  · rcases hasked.inv True hnatives fun _ => hpath with ⟨hinv, hjust⟩
    exact ⟨hinv, hjust trivial⟩
  · rcases hrun.inv True hnatives fun _ => hpath with ⟨⟨hinv, hopen⟩, -⟩
    exact ⟨hinv, (hopen trivial).justified (hinv.2 trivial) name⟩

/-- A class for which a load reports a circularity is its own ancestor, or has an ancestor that is
initialized by code or by constant texts.  The report is made at once for a class that is being
loaded and not registered yet; if this class is not its own ancestor, one of its ancestors is
half-initialized at this moment. -/
theorem circularity_explained (hnatives : host.natives.Lawful) (hpath : host.path.Plain)
    (hask : host.CanAsk name m) :
    (∀ fuel x m', host.load fuel name m = .error (.fault (.malformed (.circularity x))) m' →
        host.path.Ancestor x x ∨
          ∃ ancestor, host.path.Ancestor x ancestor ∧ host.path.Initializes ancestor) ∧
      (Descriptor.isArray name = false → m.standing? name = none → name ∈ m.loading →
        (∀ fuel, host.load (fuel + 1) name m =
            .error (.fault (.malformed (.circularity name))) m) ∧
          (host.path.Ancestor name name ∨
            ∃ ancestor ∈ m.loading, host.path.Ancestor name ancestor ∧
              host.path.Initializes ancestor ∧
                ∃ c, m.standing? ancestor = some (c, .linked))) := by
  rcases hask.inv hnatives hpath with ⟨hinv, hjust⟩
  constructor
  · intro fuel x m' hload
    have hends := (load_loads True hnatives (fun _ => hpath) fuel name m hinv fun _ => hjust).2
    rw [hload] at hends
    exact hends.2.2 trivial x rfl
  · intro harray hnone hmem
    refine ⟨fun fuel => loadWith_circular harray hnone hmem, ?_⟩
    refine (hjust.ancestor hnone hmem).imp_right ?_
    rintro ⟨a, ha, hanc, ⟨⟨c, s⟩, hs⟩, hinit⟩
    have hlinked : s = .linked := hinv.1.busy ha hs
    rw [hlinked] at hs
    exact ⟨a, ha, hanc, hinit, c, hs⟩

end Host

/-!
# Tables without cycles
-/

namespace ClassPath

def supertypesOf (bytes : List UInt8) : List String :=
  match ClassFile.read bytes with
  | .ok file => file.superName.toList ++ file.interfaces
  | .error _ => []

theorem Supertype.ofRows {rows : List (String × List UInt8)} {name other : String}
    (h : (ClassPath.ofRows rows).Supertype name other) :
    ∃ row ∈ rows, row.1 = name ∧ other ∈ supertypesOf row.2 := by
  rcases h with ⟨file, ⟨log, bytes, hfind, hread, -⟩, hsuper⟩
  unfold ClassPath.ofRows at hfind
  split at hfind
  next found hlookup =>
      cases hfind
      refine ⟨(name, bytes), List.mem_reverse.mp (mem_of_lookup hlookup), rfl, ?_⟩
      simp only [supertypesOf, hread, List.mem_append, Option.mem_toList]
      exact hsuper
  next => cases hfind

/-- Where a rank falls from every class to its supertypes, no class is its own ancestor. -/
theorem not_ancestor_self {rows : List (String × List UInt8)} (rank : String → Nat)
    (hrank : ∀ row ∈ rows, ∀ other ∈ supertypesOf row.2, rank other < rank row.1) (name : String) :
    ¬ (ClassPath.ofRows rows).Ancestor name name := by
  have hfalls {a b : String} (h : (ClassPath.ofRows rows).Ancestor a b) : rank b < rank a := by
    induction h with
    | single hsuper =>
        rcases hsuper.ofRows with ⟨row, hrow, rfl, hother⟩
        exact hrank row hrow _ hother
    | tail _ hsuper ih =>
        rcases hsuper.ofRows with ⟨row, hrow, rfl, hother⟩
        exact (hrank row hrow _ hother).trans ih
  exact fun h => Nat.lt_irrefl _ (hfalls h)

end ClassPath

namespace UsedSubclass

/-!
The initializer of `P` makes an object of `S`, and `S` extends `P`.
-/

/-- `new S; pop; return` -/
def creation : List UInt8 := [0xBB, 0, 9, 0x57, 0xB1]

def rows : List (String × List UInt8) :=
  [("P", Sample.file "P" (some rootName) [.utf8 "S", .classRef 8] [Sample.initializer creation]),
    ("S", Sample.file "S" (some "P") [] [])]

def host : Host := Sample.host rows

def rank : String → Nat
  | "S" => 2
  | "P" => 1
  | _ => 0

theorem not_ancestor_self (name : String) : ¬ host.path.Ancestor name name :=
  ClassPath.not_ancestor_self rank (by decide +kernel) name

theorem load_fault :
    host.load 8 "S" Machine.empty =
      .error (.fault (.malformed (.circularity "S"))) (endOf (host.load 8 "S") Machine.empty) :=
  eq_error_of_faultOf (by decide +kernel)

/-- `S` is refused if it is the first to be loaded, though it is on no cycle; after `P` it is
loaded. -/
theorem subclass_refused :
    ¬ host.path.Ancestor "S" "S" ∧
      (∃ m, host.load 8 "S" Machine.empty =
        .error (.fault (.malformed (.circularity "S"))) m) ∧
      ∃ c c' m m', host.load 8 "P" Machine.empty = .ok (.ofClass c) m ∧
        host.load 8 "S" m = .ok (.ofClass c') m' := by
  refine ⟨not_ancestor_self "S", ⟨_, load_fault⟩, ?_⟩
  have hclasses : (classOf (host.load 8 "P" Machine.empty)).isSome ∧
      (classOf (host.load 8 "S" (endOf (host.load 8 "P") Machine.empty))).isSome := by
    decide +kernel
  rcases eq_ok_of_classOf hclasses.1 with ⟨c, hparent⟩
  rcases eq_ok_of_classOf hclasses.2 with ⟨c', hsubclass⟩
  exact ⟨c, c', _, _, hparent, hsubclass⟩

theorem subclass_circularity_explained :
    host.CanAsk "S" Machine.empty ∧ ¬ host.path.Ancestor "S" "S" ∧
      ∃ ancestor, host.path.Ancestor "S" ancestor ∧ host.path.Initializes ancestor := by
  have hask : host.CanAsk "S" Machine.empty := .inl (.top "S" .empty)
  have hexplained := (Host.circularity_explained Native.library_lawful
    (ClassPath.ofRows_plain _) hask).1 8 "S" _ load_fault
  exact ⟨hask, not_ancestor_self "S", hexplained.resolve_left (not_ancestor_self "S")⟩

end UsedSubclass

end Bytecode
