import Bytecode.FileSystem.Tree
import Bytecode.Proofs.Text.Split
import Mathlib.Data.List.Basic
import Mathlib.Tactic.SplitIfs

/-!
# Saving files

A file that was saved holds what was written, and the files beside it are as they were.
-/

namespace Bytecode

/-!
# Nodes
-/

namespace Node

variable {node node' new : Node} {name other : String} {names path : List String}

def child? : Node → String → Option Node
  | directory entries, name => entries.lookup name
  | file _, _ => none

/-- The node that names lead to, none of them a dot. -/
def at? (node : Node) : List String → Option Node
  | [] => some node
  | name :: rest => (node.child? name).bind fun child => child.at? rest

theorem at?_append (node : Node) (front back : List String) :
    node.at? (front ++ back) = (node.at? front).bind (·.at? back) := by
  induction front generalizing node with
  | nil => rfl
  | cons name rest ih =>
      rw [List.cons_append, at?, at?, Option.bind_assoc]
      exact congrArg _ (funext ih)

theorem lookup_filter_ne (entries : List (String × Node)) (h : other ≠ name) :
    (entries.filter (·.1 ≠ name)).lookup other = entries.lookup other := by
  induction entries with
  | nil => rfl
  | cons entry rest ih =>
      obtain ⟨key, child⟩ := entry
      rw [List.filter_cons]
      by_cases hkey : key = name
      · rw [if_neg (by simpa using hkey), ih, List.lookup_cons, hkey,
          beq_false_of_ne h]
      · rw [if_pos (by simpa using hkey), List.lookup_cons, List.lookup_cons, ih]

theorem child?_insert (node : Node) (name : String) (rest : List String) (new : Node)
    (other : String) :
    (node.insert (name :: rest) new).child? other =
      if other = name then some (((node.child? name).getD (directory [])).insert rest new)
      else node.child? other := by
  cases node with
  | file bytes =>
      simp only [insert, child?, List.lookup_cons, List.lookup_nil, Option.getD_none]
      split_ifs with h
      · rw [h, beq_self_eq_true]
      · rw [beq_false_of_ne h]
  | directory entries =>
      simp only [insert, child?, List.lookup_cons]
      split_ifs with h
      · rw [h, beq_self_eq_true]
      · rw [beq_false_of_ne h, lookup_filter_ne entries h]

theorem at?_insert_self (node : Node) (path : List String) (new : Node) :
    (node.insert path new).at? path = some new := by
  induction path generalizing node with
  | nil => cases node <;> rfl
  | cons name rest ih =>
      rw [at?, child?_insert, if_pos rfl]
      exact ih _

theorem at?_insert_above (node : Node) (above : List String) (name : String)
    (rest : List String) (new : Node) :
    ∃ entries, (node.insert (above ++ name :: rest) new).at? above = some (directory entries) := by
  induction above generalizing node with
  | nil => cases node <;> exact ⟨_, rfl⟩
  | cons first above ih =>
      rw [List.cons_append, at?, child?_insert, if_pos rfl]
      exact ih _

theorem at?_insert_beside (node new : Node) (h : ¬names <+: path) (h' : ¬path <+: names) :
    (node.insert path new).at? names = node.at? names := by
  induction names generalizing node path with
  | nil => exact absurd List.nil_prefix h
  | cons name names ih =>
      cases path with
      | nil => exact absurd List.nil_prefix h'
      | cons first path =>
          rw [at?, at?, child?_insert]
          split_ifs with heq
          · subst heq
            rw [List.cons_prefix_cons, eq_self, true_and] at h h'
            refine (ih _ h h').trans ?_
            cases node.child? name with
            | some child => rfl
            | none =>
                cases names with
                | nil => exact absurd List.nil_prefix h
                | cons second names => rfl
          · rfl

theorem directory_of_at?_append {above : List String} {rest : List String}
    (h : node.at? (above ++ name :: rest) = some node') :
    ∃ entries, node.at? above = some (directory entries) := by
  rw [at?_append] at h
  cases habove : node.at? above with
  | none =>
      rw [habove] at h
      cases h
  | some child =>
      cases child with
      | directory entries => exact ⟨entries, rfl⟩
      | file bytes =>
          rw [habove] at h
          cases h

/-- What saving `bytes` makes of a node, at the place of the file that is saved or elsewhere. -/
def Kept (atPlace : Prop) (bytes : List UInt8) : Node → Node → Prop
  | directory _, directory _ => True
  | file old, file now => (atPlace → now = bytes) ∧ (¬atPlace → now = old)
  | _, _ => False

theorem kept_refl {atPlace : Prop} (h : ¬atPlace) (bytes : List UInt8) (node : Node) :
    Kept atPlace bytes node node := by
  cases node with
  | file old => exact ⟨fun hat => absurd hat h, fun _ => rfl⟩
  | directory entries => trivial

/-- A file may be put where only directories lead to and none is. -/
structure Room (node : Node) (path : List String) : Prop where
  above : ∀ front name rest, path = front ++ name :: rest →
    ∃ entries, node.at? front = some (directory entries)
  here : ∀ entries, node.at? path ≠ some (directory entries)

theorem Room.kept {node child : Node} {bytes : List UInt8} (h : Room node path)
    (hnames : node.at? names = some child) :
    ∃ child', (node.insert path (file bytes)).at? names = some child' ∧
      Kept (names = path) bytes child child' := by
  by_cases hbefore : names <+: path
  · obtain ⟨rest, rfl⟩ := hbefore
    cases rest with
    | nil =>
        rw [List.append_nil] at h ⊢
        refine ⟨_, at?_insert_self node names _, ?_⟩
        cases child with
        | file old => exact ⟨fun _ => rfl, fun hne => absurd rfl hne⟩
        | directory entries => exact absurd hnames (h.here entries)
    | cons name rest =>
        obtain ⟨entries, hdirectory⟩ := h.above names name rest rfl
        rw [hdirectory] at hnames
        cases hnames
        obtain ⟨entries', hinsert⟩ := at?_insert_above node names name rest (file bytes)
        exact ⟨_, hinsert, trivial⟩
  · by_cases hbehind : path <+: names
    · obtain ⟨rest, rfl⟩ := hbehind
      cases rest with
      | nil =>
          rw [List.append_nil] at hbefore
          exact absurd List.prefix_rfl hbefore
      | cons name rest =>
          obtain ⟨entries, hdirectory⟩ := directory_of_at?_append hnames
          exact absurd hdirectory (h.here entries)
    · have hne : names ≠ path := fun heq => hbefore (heq ▸ List.prefix_rfl)
      exact ⟨child, (at?_insert_beside node _ hbefore hbehind).trans hnames,
        kept_refl hne bytes child⟩

end Node

/-!
# Walks
-/

namespace FileTree

variable {t t' : FileTree} {places places' ends : List Place} {names target : List String}

inductive Along (t : FileTree) : List Place → Prop
  | start : Along t []
  | enter {place : Place} {places : List Place} (h : Along t places)
      (hname : (t.here places).child? place.name = some place.node) : Along t (place :: places)

def trail (places : List Place) : List String :=
  (places.map Place.name).reverse

theorem trail_cons (place : Place) (places : List Place) :
    trail (place :: places) = trail places ++ [place.name] :=
  List.reverse_cons

theorem trail_tail (places : List Place) : trail places.tail = (trail places).dropLast := by
  rw [trail, trail, List.map_tail, List.dropLast_reverse]

theorem Along.at? (h : Along t places) : t.root.at? (trail places) = some (t.here places) := by
  induction h with
  | start => rfl
  | @enter place places h hname ih =>
      rw [trail_cons, Node.at?_append, ih, Option.bind_some, Node.at?, hname]
      rfl

theorem Along.tail (h : Along t places) : Along t places.tail := by
  cases h with
  | start => exact .start
  | enter h hname => exact h

theorem walk_along (h : Along t places) (hwalk : t.walk places names = .ok ends) :
    Along t ends := by
  fun_induction walk t places names with
  | case1 =>
      cases hwalk
      exact h
  | case2 => cases hwalk
  | case3 places rest entries hhere ih => exact ih h hwalk
  | case4 places rest entries hhere hne ih => exact ih h.tail hwalk
  | case5 => cases hwalk
  | case6 => cases hwalk
  | case7 places name rest entries hhere hdot hdots hsize node hlookup ih =>
      exact ih (.enter h (by rw [hhere]; exact hlookup)) hwalk

theorem walk_append (front back : List String) :
    t.walk places (front ++ back) = (t.walk places front).bind fun ends => t.walk ends back := by
  fun_induction walk t places front with
  | case1 => rfl
  | case2 places name rest bytes hhere =>
      rw [List.cons_append, walk, hhere]
      rfl
  | case3 places rest entries hhere ih =>
      rw [List.cons_append, walk, hhere]
      exact ih
  | case4 places rest entries hhere hne ih =>
      rw [List.cons_append, walk, hhere]
      exact ih
  | case5 places name rest entries hhere hdot hdots hsize =>
      rw [List.cons_append, walk, hhere]
      dsimp only
      rw [if_neg hdot, if_neg hdots, if_pos hsize]
      rfl
  | case6 places name rest entries hhere hdot hdots hsize hlookup =>
      rw [List.cons_append, walk, hhere]
      dsimp only
      rw [if_neg hdot, if_neg hdots, if_neg hsize, hlookup]
      rfl
  | case7 places name rest entries hhere hdot hdots hsize node hlookup ih =>
      rw [List.cons_append, walk, hhere]
      dsimp only
      rw [if_neg hdot, if_neg hdots, if_neg hsize, hlookup]
      exact ih

/-- Names from the root to where a path starts. -/
def origin (t : FileTree) (path : String) : List String :=
  if Path.isAbsolute path then [] else t.workingDirectory

theorem walkFrom_eq (path : String) (names : List String) :
    t.walkFrom path names = t.walk [] (t.origin path ++ names) := by
  unfold walkFrom origin
  split_ifs
  · rfl
  · rw [walk_append]
    rfl

/-- A path that can be resolved in some tree. -/
structure Valid (path : String) : Prop where
  nul : path.toList.contains (Char.ofNat 0) = false
  nonempty : path ≠ ""
  size : path.utf8ByteSize ≤ maxPathSize

/-- Names along a path; a slash at the end counts as a dot. -/
def namesOf (path : String) : List String :=
  Path.names path ++ (if Path.wantsDirectory path then ["."] else [])

theorem resolve_of_valid {path : String} (h : Valid path) :
    t.resolve path = t.walk [] (t.origin path ++ namesOf path) := by
  unfold resolve
  rw [h.nul, if_neg Bool.false_ne_true, if_neg h.nonempty, if_neg (Nat.not_lt.mpr h.size)]
  exact walkFrom_eq path _

theorem valid_or_error (t : FileTree) (path : String) :
    Valid path ∨ t.resolve path = .error .nulInPath ∨
      (path = "" ∧ t.resolve path = .error .notFound) ∨ t.resolve path = .error .nameTooLong := by
  unfold resolve
  by_cases hnul : path.toList.contains (Char.ofNat 0) = true
  · rw [if_pos hnul]
    exact .inr (.inl rfl)
  · by_cases hempty : path = ""
    · rw [if_neg hnul, if_pos hempty]
      exact .inr (.inr (.inl ⟨hempty, rfl⟩))
    · by_cases hsize : maxPathSize < path.utf8ByteSize
      · rw [if_neg hnul, if_neg hempty, if_pos hsize]
        exact .inr (.inr (.inr rfl))
      · exact .inl ⟨Bool.eq_false_iff.mpr hnul, hempty, Nat.not_lt.mp hsize⟩

theorem valid_of_resolve {path : String} (h : t.resolve path = .ok ends) : Valid path := by
  rcases t.valid_or_error path with hvalid | herror | ⟨-, herror⟩ | herror
  · exact hvalid
  all_goals
    rw [herror] at h
    cases h

/-!
# Trees after saving
-/

/-- A tree after a file was put at a place for files. -/
structure Saves (t : FileTree) (target : List String) (bytes : List UInt8) (t' : FileTree) :
    Prop where
  root : t'.root = t.root.insert target (.file bytes)
  workingDirectory : t'.workingDirectory = t.workingDirectory
  room : t.root.Room target

variable {bytes : List UInt8} {path : String}

theorem Saves.here (hs : Saves t target bytes t') (h : Along t places) (h' : Along t' places')
    (htrail : trail places = trail places') :
    Node.Kept (trail places = target) bytes (t.here places) (t'.here places') := by
  obtain ⟨node, hnode, hkept⟩ := hs.room.kept h.at?
  have hhere := h'.at?
  rw [hs.root, ← htrail, hnode] at hhere
  exact Option.some.inj hhere ▸ hkept

theorem Saves.directory {entries : List (String × Node)} (hs : Saves t target bytes t')
    (h : Along t places) (h' : Along t' places') (htrail : trail places = trail places')
    (hhere : t.here places = .directory entries) :
    ∃ entries', t'.here places' = .directory entries' := by
  have hkept := hs.here h h' htrail
  rw [hhere] at hkept
  cases hhere' : t'.here places' with
  | file now =>
      rw [hhere'] at hkept
      exact hkept.elim
  | directory entries' => exact ⟨entries', rfl⟩

theorem Saves.walk (hs : Saves t target bytes t') (h : Along t places) (h' : Along t' places')
    (htrail : trail places = trail places') (hwalk : t.walk places names = .ok ends) :
    ∃ ends', t'.walk places' names = .ok ends' ∧ trail ends = trail ends' := by
  -- the same way is taken in both trees, which differ only at the file that was saved
  fun_induction FileTree.walk t places names generalizing places' with
  | case1 =>
      cases hwalk
      exact ⟨places', rfl, htrail⟩
  | case2 => cases hwalk
  | case3 places rest entries hhere ih =>
      obtain ⟨entries', hhere'⟩ := hs.directory h h' htrail hhere
      rw [FileTree.walk, hhere']
      exact ih h h' htrail hwalk
  | case4 places rest entries hhere hne ih =>
      obtain ⟨entries', hhere'⟩ := hs.directory h h' htrail hhere
      rw [FileTree.walk, hhere']
      exact ih h.tail h'.tail (by rw [trail_tail, trail_tail, htrail]) hwalk
  | case5 => cases hwalk
  | case6 => cases hwalk
  | case7 places name rest entries hhere hdot hdots hsize node hlookup ih =>
      obtain ⟨entries', hhere'⟩ := hs.directory h h' htrail hhere
      have hplace : Along t (⟨name, node⟩ :: places) := .enter h (by rw [hhere]; exact hlookup)
      obtain ⟨node', hnode', -⟩ := hs.room.kept hplace.at?
      rw [← hs.root, trail_cons, Node.at?_append, htrail, h'.at?, hhere', Option.bind_some,
        Node.at?, Option.bind_eq_some_iff] at hnode'
      obtain ⟨child, hchild, -⟩ := hnode'
      have hplace' : Along t' (⟨name, child⟩ :: places') := .enter h' (hhere'.symm ▸ hchild)
      rw [Node.child?] at hchild
      rw [FileTree.walk, hhere']
      dsimp only
      rw [if_neg hdot, if_neg hdots, if_neg hsize, hchild]
      exact ih hplace hplace' (by rw [trail_cons, trail_cons, htrail]) hwalk

theorem Saves.origin (hs : Saves t target bytes t') (path : String) :
    t'.origin path = t.origin path := by
  rw [FileTree.origin, FileTree.origin, hs.workingDirectory]

theorem Saves.resolve (hs : Saves t target bytes t') (h : t.resolve path = .ok ends) :
    ∃ ends', t'.resolve path = .ok ends' ∧ trail ends = trail ends' := by
  have hvalid := valid_of_resolve h
  rw [resolve_of_valid hvalid] at h ⊢
  rw [hs.origin]
  exact hs.walk .start .start rfl h

theorem resolve_along (h : t.resolve path = .ok ends) : Along t ends :=
  walk_along .start (resolve_of_valid (valid_of_resolve h) ▸ h)

theorem contents_of_resolve (h : t.resolve path = .ok ends) :
    t.contents path = match t.here ends with
      | .file bytes => .ok bytes
      | .directory _ => .error .isADirectory := by
  simp only [contents, node, h, Except.map, bind, Except.bind]
  cases t.here ends <;> rfl

theorem contents_eq_ok_iff :
    t.contents path = .ok bytes ↔
      ∃ ends, t.resolve path = .ok ends ∧ t.here ends = .file bytes := by
  constructor
  · intro h
    cases hresolve : t.resolve path with
    | error cause =>
        simp only [contents, node, hresolve, Except.map, bind, Except.bind] at h
        cases h
    | ok ends =>
        rw [contents_of_resolve hresolve] at h
        cases hhere : t.here ends with
        | file old =>
            rw [hhere] at h
            exact ⟨ends, rfl, congrArg Node.file (Except.ok.inj h) ▸ hhere⟩
        | directory entries =>
            rw [hhere] at h
            cases h
  · rintro ⟨ends, hresolve, hhere⟩
    rw [contents_of_resolve hresolve, hhere]

/-- A file that can be read before something is saved can be read afterwards: what was saved, if it
is at that place, and else what it held. -/
theorem Saves.contents {old : List UInt8} (hs : Saves t target bytes t')
    (hresolve : t.resolve path = .ok ends) (hhere : t.here ends = .file old) :
    t'.contents path = .ok (if trail ends = target then bytes else old) := by
  obtain ⟨ends', hresolve', htrail⟩ := hs.resolve hresolve
  have hkept := hs.here (resolve_along hresolve) (resolve_along hresolve') htrail
  rw [hhere] at hkept
  cases hhere' : t'.here ends' with
  | directory entries =>
      rw [hhere'] at hkept
      exact hkept.elim
  | file now =>
      rw [hhere'] at hkept
      refine contents_eq_ok_iff.mpr ⟨ends', hresolve', ?_⟩
      rw [hhere']
      split_ifs with hplace
      · rw [hkept.1 hplace]
      · rw [hkept.2 hplace]

theorem Saves.here_of_trail (hs : Saves t target bytes t') (h : t'.resolve path = .ok ends)
    (htrail : trail ends = target) : t'.here ends = .file bytes := by
  have hat := (resolve_along h).at?
  rw [hs.root, htrail, Node.at?_insert_self] at hat
  exact (Option.some.inj hat).symm

def LeadsTo (t : FileTree) (path : String) (target : List String) : Prop :=
  ∃ ends, t.resolve path = .ok ends ∧ trail ends = target

theorem save_of_file (hresolve : t.resolve path = .ok ends) {old : List UInt8}
    (hhere : t.here ends = .file old) (bytes : List UInt8) :
    ∃ t', t.save path bytes = .ok t' ∧ Saves t (trail ends) bytes t' ∧
      LeadsTo t' path (trail ends) := by
  have hat := (resolve_along hresolve).at?
  have hsaves : Saves t (trail ends) bytes (t.place ends [] (.file bytes)) := by
    refine ⟨?_, rfl, ⟨fun front name rest htrail => ?_, fun entries hentries => ?_⟩⟩
    · rw [place, List.append_nil]
      rfl
    · rw [htrail] at hat
      exact Node.directory_of_at?_append hat
    · rw [hat, hhere] at hentries
      cases hentries
  obtain ⟨ends', hresolve', htrail⟩ := hsaves.resolve hresolve
  refine ⟨_, ?_, hsaves, ends', hresolve', htrail.symm⟩
  rw [save, hresolve]
  dsimp only
  rw [hhere]

theorem names_empty : Path.names "" = [] := by
  have hsplit : "".splitOn "/" = [""] := Text.splitOn_singleton "" '/'
  rw [Path.names, hsplit]
  rfl

/-- What is resolved in no tree fails for other reasons than a missing file. -/
theorem valid_of_missing {name : String} (hlast : (Path.names path).getLast? = some name)
    (h : t.resolve path = .error .notFound) : Valid path := by
  rcases t.valid_or_error path with hvalid | herror | ⟨rfl, -⟩ | herror
  · exact hvalid
  · rw [h] at herror
    cases herror
  · rw [names_empty] at hlast
    cases hlast
  · rw [h] at herror
    cases herror

/-- A file that is missing and can be made. -/
structure Missing (t : FileTree) (path : String) (places : List Place) (name : String) : Prop where
  valid : Valid path
  names : ∃ front, Path.names path = front ++ [name] ∧
    t.walk [] (t.origin path ++ front) = .ok places
  file : Path.wantsDirectory path = false
  here : ∃ entries, t.here places = .directory entries
  step : t.walk places [name] = .error .notFound
  dots : name ≠ "." ∧ name ≠ ".."

theorem missing_of_save (hresolve : t.resolve path = .error .notFound)
    (h : t.save path bytes = .ok t') :
    ∃ places name, Missing t path places name ∧ t' = t.place places [name] (.file bytes) := by
  unfold save at h
  rw [hresolve] at h
  dsimp only at h
  cases hlast : (Path.names path).getLast? with
  | none =>
      rw [hlast] at h
      cases h
  | some name =>
      rw [hlast] at h
      dsimp only at h
      cases hwalk : t.walkFrom path (Path.names path).dropLast with
      | error cause =>
          rw [hwalk] at h
          cases h
      | ok places =>
          rw [hwalk] at h
          simp only [bind, Except.bind] at h
          split at h
          next => cases h
          next hdots =>
            rw [not_or] at hdots
            cases hhere : t.here places with
            | file old =>
                rw [hhere] at h
                cases h
            | directory entries =>
                rw [hhere] at h
                dsimp only at h
                split at h
                next => cases h
                next hslash =>
                  have hnames := List.dropLast_append_getLast? name hlast
                  rw [walkFrom_eq] at hwalk
                  have hvalid := valid_of_missing hlast hresolve
                  rw [resolve_of_valid hvalid, namesOf, if_neg hslash, List.append_nil, ← hnames,
                    ← List.append_assoc, walk_append, hwalk] at hresolve
                  exact ⟨places, name, ⟨hvalid, ⟨_, hnames.symm, hwalk⟩,
                    Bool.eq_false_iff.mpr hslash, ⟨entries, hhere⟩, hresolve, hdots⟩,
                    (Except.ok.inj h).symm⟩

theorem Missing.lookup {name : String} {entries : List (String × Node)}
    (h : Missing t path places name) (hhere : t.here places = .directory entries) :
    name.utf8ByteSize ≤ maxNameSize ∧ entries.lookup name = none := by
  have hstep := h.step
  rw [walk, hhere] at hstep
  dsimp only at hstep
  rw [if_neg h.dots.1, if_neg h.dots.2] at hstep
  split_ifs at hstep with hsize
  · cases hstep
  refine ⟨Nat.not_lt.mp hsize, ?_⟩
  cases hlookup : entries.lookup name with
  | none => rfl
  | some node =>
      rw [hlookup] at hstep
      cases hstep

theorem Missing.saves {name : String} (h : Missing t path places name) :
    Saves t (trail places ++ [name]) bytes (t.place places [name] (.file bytes)) := by
  obtain ⟨entries, hhere⟩ := h.here
  obtain ⟨front, -, hwalk⟩ := h.names
  have hat := (walk_along .start hwalk).at?
  rw [hhere] at hat
  refine ⟨rfl, rfl, ⟨fun front last rest htarget => ?_, fun entries' hentries => ?_⟩⟩
  · rcases List.append_eq_append_iff.mp htarget with
      ⟨between, rfl, hname⟩ | ⟨between, htrail, hname⟩
    · cases between with
      | nil => exact ⟨entries, (List.append_nil (trail places)).symm ▸ hat⟩
      | cons first between =>
          exact absurd (List.cons.inj hname).2 (by simp)
    · cases between with
      | nil => exact ⟨entries, (htrail.trans (List.append_nil front)) ▸ hat⟩
      | cons first between =>
          rw [htrail] at hat
          exact Node.directory_of_at?_append hat
  · rw [Node.at?_append, hat, Option.bind_some, Node.at?, Node.child?,
      (h.lookup hhere).2] at hentries
    cases hentries

theorem Missing.leadsTo {name : String} (h : Missing t path places name)
    (hs : Saves t (trail places ++ [name]) bytes t') :
    LeadsTo t' path (trail places ++ [name]) := by
  obtain ⟨entries, hhere⟩ := h.here
  obtain ⟨front, hnames, hwalk⟩ := h.names
  have halong := walk_along .start hwalk
  obtain ⟨ends, hwalk', htrail⟩ := hs.walk .start .start rfl hwalk
  have halong' := walk_along .start hwalk'
  obtain ⟨entries', hhere'⟩ := hs.directory halong halong' htrail hhere
  have htarget := Node.at?_insert_self t.root (trail places ++ [name]) (.file bytes)
  rw [← hs.root, Node.at?_append, htrail, halong'.at?, Option.bind_some, hhere', Node.at?,
    Option.bind_eq_some_iff] at htarget
  obtain ⟨node, hnode, -⟩ := htarget
  rw [Node.child?] at hnode
  have hresolve : t'.resolve path = .ok (⟨name, node⟩ :: ends) := by
    rw [resolve_of_valid h.valid, namesOf, h.file, if_neg Bool.false_ne_true, List.append_nil,
      hs.origin, hnames, ← List.append_assoc, walk_append, hwalk']
    show t'.walk ends [name] = _
    rw [walk, hhere']
    dsimp only
    rw [if_neg h.dots.1, if_neg h.dots.2, if_neg (Nat.not_lt.mpr (h.lookup hhere).1), hnode]
    rfl
  exact ⟨_, hresolve, by rw [trail_cons, htrail]⟩

theorem save_saves (h : t.save path bytes = .ok t') :
    ∃ target, Saves t target bytes t' ∧ LeadsTo t' path target := by
  cases hresolve : t.resolve path with
  | ok ends =>
      cases hhere : t.here ends with
      | file old =>
          obtain ⟨t'', hsave, hs, hleads⟩ := save_of_file hresolve hhere bytes
          cases Except.ok.inj (hsave.symm.trans h)
          exact ⟨_, hs, hleads⟩
      | directory entries =>
          rw [save, hresolve] at h
          dsimp only at h
          rw [hhere] at h
          cases h
  | error cause =>
      by_cases hcause : cause = .notFound
      · subst hcause
        obtain ⟨places, name, hmissing, rfl⟩ := missing_of_save hresolve h
        exact ⟨_, hmissing.saves, hmissing.leadsTo hmissing.saves⟩
      · unfold save at h
        rw [hresolve] at h
        cases cause with
        | notFound => exact absurd rfl hcause
        | _ => cases h

theorem contents_of_save (h : t.save path bytes = .ok t') : t'.contents path = .ok bytes := by
  obtain ⟨target, hs, ends, hresolve, htrail⟩ := save_saves h
  exact contents_eq_ok_iff.mpr ⟨ends, hresolve, hs.here_of_trail hresolve htrail⟩

/-- What could be read before a file was saved can be read afterwards, and only what is read from
that file has changed. -/
theorem contents_after_save (h : t.save path bytes = .ok t') {other : String} {old : List UInt8}
    (hold : t.contents other = .ok old) :
    t'.contents other = .ok old ∨ t'.contents other = .ok bytes := by
  obtain ⟨target, hs, -⟩ := save_saves h
  obtain ⟨ends, hresolve, hhere⟩ := contents_eq_ok_iff.mp hold
  rw [hs.contents hresolve hhere]
  split_ifs
  · exact .inr rfl
  · exact .inl rfl

/-- A file that was saved can be saved again, which changes nothing but what is read from it. -/
theorem save_again (h : t.save path bytes = .ok t') (bytes' : List UInt8) :
    ∃ t'', t'.save path bytes' = .ok t'' ∧ ∀ other old, t.contents other = .ok old →
      t''.contents other = .ok old ∨ t''.contents other = .ok bytes' := by
  obtain ⟨target, hs, ends, hresolve, rfl⟩ := save_saves h
  obtain ⟨t'', hsave, hs', -⟩ := save_of_file hresolve (hs.here_of_trail hresolve rfl) bytes'
  refine ⟨t'', hsave, fun other old hold => ?_⟩
  obtain ⟨places, hother, hhere⟩ := contents_eq_ok_iff.mp hold
  obtain ⟨places', hother', htrail⟩ := hs.resolve hother
  obtain ⟨places'', hother'', hhere''⟩ := contents_eq_ok_iff.mp (hs.contents hother hhere)
  cases Except.ok.inj (hother'.symm.trans hother'')
  have hcontents := hs'.contents hother' hhere''
  rw [htrail] at hcontents
  rw [hcontents]
  split_ifs
  · exact .inr rfl
  · exact .inl rfl

end FileTree
end Bytecode
