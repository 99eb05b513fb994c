import Bytecode.Proofs.ClassFile.RoundTrip
import Bytecode.Proofs.Execution.SuperCalls

/-!
# Switches

Both instructions that branch by a key list keys with offsets, and go by the offset of the key, or
by a default when the key is not listed.  What is listed decides, not how: a table and a list of
pairs with the same keys and offsets branch alike.
-/

namespace Bytecode

/-!
# What is written
-/

inductive Switch where
  /-- Offsets for all keys from `low` to `high`. -/
  | table (default low high : Int32) (offsets : List Int32)
  /-- Keys and their offsets. -/
  | lookup (default : Int32) (pairs : List (Int32 × Int32))

namespace Switch

def opcode : Switch → UInt8
  | table .. => 0xAA
  | lookup .. => 0xAB

def default : Switch → Int32
  | table default _ _ _ => default
  | lookup default _ => default

def cases : Switch → List (Int32 × Int32)
  | table _ low _ offsets => offsets.mapIdx fun i offset => (Int32.ofInt (low.toInt + i), offset)
  | lookup _ pairs => pairs

/-- A table has an offset for each of its keys; keys that are listed one by one increase, and their
number is one that can be written. -/
def WellFormed : Switch → Prop
  | table _ low high offsets => low ≤ high ∧ (offsets.length : Int) = high.toInt - low.toInt + 1
  | lookup _ pairs => (pairs.Pairwise fun a b => a.1 < b.1) ∧ pairs.length < 2 ^ 31

/-- The offset for a key: the one listed for it, or the default if there is none. -/
def Selects (s : Switch) (key offset : Int32) : Prop :=
  (key, offset) ∈ s.cases ∨ (∀ other, (key, other) ∉ s.cases) ∧ offset = s.default

def words : Switch → List Int32
  | table default low high offsets => default :: low :: high :: offsets
  | lookup default pairs =>
      default :: Int32.ofNat pairs.length :: pairs.flatMap fun pair => [pair.1, pair.2]

def bytes (s : Switch) : List UInt8 :=
  s.words.flatMap fun word => BigEndian.u32 word.toUInt32

/-- The switch stands at an address of the code: its code is there, and its words start at the next
multiple of four, with anything between. -/
def StandsAt (s : Switch) (code : Array UInt8) (address : Nat) : Prop :=
  code[address]? = some s.opcode ∧
    ∃ start, 4 ∣ start ∧ address < start ∧ start ≤ address + 4 ∧ s.bytes <+: code.toList.drop start

end Switch

/-!
# Reading operands
-/

namespace Decoder

variable {α β : Type}

/-- Wherever the code holds the bytes, the value is read from them and the address moves behind
them. -/
def Reads (x : Decoder α) (bytes : List UInt8) (value : α) : Prop :=
  ∀ (code : Array UInt8) (address : Nat), bytes <+: code.toList.drop address →
    x code address = .ok (value, address + bytes.length)

namespace Reads

theorem pure (value : α) : (Pure.pure value : Decoder α).Reads [] value :=
  fun _ _ _ => rfl

theorem bind {x : Decoder α} {f : α → Decoder β} {bytes bytes' : List UInt8} {a : α} {b : β}
    (h : x.Reads bytes a) (h' : (f a).Reads bytes' b) : (x >>= f).Reads (bytes ++ bytes') b := by
  intro code address hcode
  have hbehind : bytes' <+: code.toList.drop (address + bytes.length) := by
    obtain ⟨rest, hrest⟩ := hcode
    rw [← List.drop_drop, ← hrest, List.append_assoc, List.drop_left]
    exact List.prefix_append _ _
  show Except.bind (x code address) _ = _
  rw [h code address ((List.prefix_append _ _).trans hcode)]
  show f a code (address + bytes.length) = _
  rw [h' code _ hbehind, List.length_append, Nat.add_assoc]

theorem map {x : Decoder α} {bytes : List UInt8} {a : α} (f : α → β) (h : x.Reads bytes a) :
    (do return f (← x) : Decoder β).Reads bytes (f a) := by
  rw [← List.append_nil bytes]
  exact h.bind (pure (f a))

theorem attempt {x : Decoder α} {bytes : List UInt8} {a : α} (h : x.Reads bytes a) :
    (tryCatch (some <$> x) fun _ => return none : Decoder (Option α)).Reads bytes (some a) := by
  intro code address hcode
  have hread : (some <$> x : Decoder (Option α)) code address =
      .ok (some a, address + bytes.length) := by
    show Except.bind (x code address) _ = _
    rw [h code address hcode]
    rfl
  show tryCatch ((some <$> x : Decoder (Option α)) code address) _ = _
  rw [hread]
  rfl

end Reads

theorem u8_reads (b : UInt8) : u8.Reads [b] b := by
  intro code address hcode
  have hbyte : code[address]? = some b := by
    obtain ⟨rest, hrest⟩ := hcode
    rw [← Array.getElem?_toList, ← Nat.add_zero address, ← List.getElem?_drop, ← hrest]
    rfl
  have hget (f : Nat → Decoder UInt8) : (get >>= f) code address = f address code address := rfl
  have hread (f : Array UInt8 → Decoder UInt8) :
      (read >>= f) code address = f code code address := rfl
  unfold u8
  rw [hget, hread, hbyte]
  rfl

theorem u16_reads (word : UInt16) : u16.Reads (BigEndian.u16 word) word := by
  have h : u16.Reads ([(word >>> 8).toUInt8] ++ [word.toUInt8])
      (((word >>> 8).toUInt8.toUInt16 <<< 8) ||| word.toUInt8.toUInt16) := by
    apply (u8_reads _).bind
    exact (u8_reads word.toUInt8).map _
  rw [Reader.join_u16] at h
  exact h

theorem i32_reads (word : Int32) : i32.Reads (BigEndian.u32 word.toUInt32) word := by
  have h : i32.Reads (BigEndian.u32 word.toUInt32)
      (((word.toUInt32 >>> 16).toUInt16.toUInt32 <<< 16) |||
        word.toUInt32.toUInt16.toUInt32).toInt32 := by
    apply (u16_reads _).bind
    exact (u16_reads word.toUInt32.toUInt16).map _
  rw [Reader.join_u32] at h
  exact h

theorem offsets_reads (words : List Int32) :
    (offsets words.length).Reads (words.flatMap fun word => BigEndian.u32 word.toUInt32) words := by
  induction words with
  | nil => exact .pure []
  | cons word words ih =>
      rw [List.flatMap_cons]
      exact (i32_reads word).bind (ih.map (word :: ·))

theorem pairs_reads (table : List (Int32 × Int32)) :
    (pairs table.length).Reads ((table.flatMap fun pair => [pair.1, pair.2]).flatMap fun word =>
      BigEndian.u32 word.toUInt32) table := by
  induction table with
  | nil => exact .pure []
  | cons pair table ih =>
      rw [List.flatMap_cons, List.flatMap_append, List.flatMap_cons, List.flatMap_singleton,
        List.append_assoc]
      exact (i32_reads pair.1).bind ((i32_reads pair.2).bind (ih.map (pair :: ·)))

theorem tableSwitch_reads {default low high : Int32} {offsets : List Int32}
    (h : (Switch.table default low high offsets).WellFormed) :
    (do
      let default ← i32
      let low ← i32
      let high ← i32
      return .tableSwitch default low high (← Decoder.offsets (high.toInt - low.toInt + 1).toNat) :
        Decoder Instruction).Reads (Switch.table default low high offsets).bytes
      (.tableSwitch default low high offsets) := by
  have hcount : (high.toInt - low.toInt + 1).toNat = offsets.length := by
    have hlength := h.2
    omega
  have hoffsets := offsets_reads offsets
  rw [← hcount] at hoffsets
  exact (i32_reads default).bind ((i32_reads low).bind ((i32_reads high).bind (hoffsets.map _)))

theorem lookupSwitch_reads {default : Int32} {pairs : List (Int32 × Int32)}
    (h : (Switch.lookup default pairs).WellFormed) :
    (do
      let default ← i32
      let count ← i32
      if count < 0 then throw (.negativePairs count)
      let table ← tryCatch (some <$> Decoder.pairs count.toInt.toNat) fun _ => return none
      return .lookupSwitch default table : Decoder Instruction).Reads
        (Switch.lookup default pairs).bytes (.lookupSwitch default (some pairs)) := by
  have hcount : (Int32.ofNat pairs.length).toInt = pairs.length := Int32.toInt_ofNat_of_lt h.2
  have hpairs := pairs_reads pairs
  refine (i32_reads default).bind ((i32_reads (Int32.ofNat pairs.length)).bind ?_)
  have hpositive : ¬ Int32.ofNat pairs.length < 0 := by
    rw [Int32.lt_iff_toInt_lt, hcount]
    exact not_lt.mpr (Int.natCast_nonneg _)
  rw [if_neg hpositive, hcount, Int.toNat_natCast]
  exact hpairs.attempt.map _

end Decoder

namespace Switch

variable {s : Switch} {key offset : Int32}

def instruction : Switch → Instruction
  | table default low high offsets => .tableSwitch default low high offsets
  | lookup default pairs => .lookupSwitch default (some pairs)

def target : Switch → Int32 → Int32
  | table default low high offsets, key => Exec.tableOffset default low high offsets key
  | lookup default pairs, key => Exec.lookupOffset default pairs key

theorem StandsAt.next {f : Frame} (hs : s.WellFormed) (h : s.StandsAt f.method.code f.pc) :
    ∃ behind, f.Next s.instruction behind := by
  obtain ⟨hcode, start, hdvd, hlow, hhigh, hbytes⟩ := h
  have hstart : (f.pc + 1 + 3) / 4 * 4 = start := by omega
  cases s with
  | table default low high offsets =>
      refine ⟨start + (table default low high offsets).bytes.length, 0xAA, hcode, ?_⟩
      have hread := Decoder.tableSwitch_reads hs f.method.code start hbytes
      rw [← hstart] at hread ⊢
      exact hread
  | lookup default pairs =>
      refine ⟨start + (lookup default pairs).bytes.length, 0xAB, hcode, ?_⟩
      have hread := Decoder.lookupSwitch_reads hs f.method.code start hbytes
      rw [← hstart] at hread ⊢
      exact hread

/-!
# What is selected
-/

section

variable {default low high : Int32} {offsets : List Int32}

theorem toInt_key (h : (table default low high offsets).WellFormed) {i : Nat}
    (hi : i < offsets.length) : (Int32.ofInt (low.toInt + i)).toInt = low.toInt + i := by
  have hlength := h.2
  have hlow := low.le_toInt
  have hhigh := high.toInt_lt
  exact Int32.toInt_ofInt_of_le (by omega) (by omega)

theorem mem_cases_table (h : (table default low high offsets).WellFormed) :
    (key, offset) ∈ (table default low high offsets).cases ↔
      ∃ i : Nat, offsets[i]? = some offset ∧ key.toInt = low.toInt + i := by
  simp only [cases, List.mem_mapIdx, Prod.mk.injEq]
  constructor
  · rintro ⟨i, hi, rfl, rfl⟩
    exact ⟨i, List.getElem?_eq_getElem hi, toInt_key h hi⟩
  · rintro ⟨i, hoffset, hkey⟩
    obtain ⟨hi, rfl⟩ := List.getElem?_eq_some_iff.mp hoffset
    refine ⟨i, hi, ?_, rfl⟩
    rw [← hkey, Int32.ofInt_toInt]

end

theorem WellFormed.increasing (h : s.WellFormed) : s.cases.Pairwise fun a b => a.1 < b.1 := by
  cases s with
  | lookup default pairs => exact h.1
  | table default low high offsets =>
      rw [List.pairwise_iff_getElem]
      intro i j hi hj hij
      simp only [cases, List.length_mapIdx] at hi hj
      simp only [cases, List.getElem_mapIdx]
      rw [Int32.lt_iff_toInt_lt, toInt_key h hi, toInt_key h hj]
      omega

theorem Selects.unique (hs : s.WellFormed) {offset' : Int32} (h : s.Selects key offset)
    (h' : s.Selects key offset') : offset = offset' := by
  rcases h with h | ⟨hnone, rfl⟩
  · rcases h' with h' | ⟨hnone', rfl⟩
    · have hkeys : (s.cases.map Prod.fst).Nodup :=
        List.pairwise_map.mpr (hs.increasing.imp fun hlt => Int32.ne_of_lt hlt)
      exact (Prod.mk.inj (List.inj_on_of_nodup_map hkeys h h' rfl)).2
    · exact absurd h (hnone' offset)
  · rcases h' with h' | ⟨-, rfl⟩
    · exact absurd h' (hnone offset')
    · rfl

/-- The fold over the pairs finds one with the key if there is one. -/
theorem selects_lookupOffset (default key : Int32) (pairs : List (Int32 × Int32)) :
    (lookup default pairs).Selects key (Exec.lookupOffset default pairs key) := by
  unfold Selects cases
  -- the default of the rest is what was found so far
  induction pairs generalizing default with
  | nil => exact .inr ⟨fun _ => List.not_mem_nil, rfl⟩
  | cons pair pairs ih =>
      rcases ih (if pair.1 = key then pair.2 else default) with hmem | ⟨hnone, hfold⟩
      · exact .inl (List.mem_cons_of_mem pair hmem)
      · by_cases hkey : pair.1 = key
        · have hpair : (key, Exec.lookupOffset default (pair :: pairs) key) = pair :=
            Prod.ext hkey.symm (hfold.trans (if_pos hkey))
          rw [hpair]
          exact .inl List.mem_cons_self
        · refine .inr ⟨?_, hfold.trans (if_neg hkey)⟩
          intro other hother
          rcases List.mem_cons.mp hother with heq | hother
          · exact hkey (congrArg Prod.fst heq).symm
          · exact hnone other hother

theorem selects_target (hs : s.WellFormed) (key : Int32) : s.Selects key (s.target key) := by
  cases s with
  | lookup default pairs => exact selects_lookupOffset default key pairs
  | table default low high offsets =>
      have hlength := hs.2
      by_cases hkey : key < low ∨ high < key
      · refine .inr ⟨?_, if_pos hkey⟩
        intro other hother
        obtain ⟨i, hi, heq⟩ := (mem_cases_table hs).mp hother
        have hlt := (List.getElem?_eq_some_iff.mp hi).1
        rw [Int32.lt_iff_toInt_lt, Int32.lt_iff_toInt_lt] at hkey
        omega
      · have hselected : (table default low high offsets).target key =
            offsets.getD (key.toInt - low.toInt).toNat default := if_neg hkey
        rw [not_or, Int32.lt_iff_toInt_lt, Int32.lt_iff_toInt_lt] at hkey
        have hlt : (key.toInt - low.toInt).toNat < offsets.length := by omega
        refine .inl ((mem_cases_table hs).mpr ⟨(key.toInt - low.toInt).toNat, ?_, ?_⟩)
        · rw [hselected, List.getD_eq_getElem?_getD, List.getElem?_eq_getElem hlt,
            Option.getD_some]
        · omega

theorem WellFormed.cases {default low high : Int32} {offsets : List Int32}
    (h : (table default low high offsets).WellFormed) (hlength : offsets.length < 2 ^ 31) :
    (lookup default (table default low high offsets).cases).WellFormed := by
  refine ⟨h.increasing, ?_⟩
  rw [Switch.cases, List.length_mapIdx]
  exact hlength

end Switch

/-!
# Branching
-/

namespace Exec

variable {frame : Frame} {m : Machine} {below : List Slot} {key offset : Int32} {load : Loader}
  {tracing : Bool}

/-- The next step takes the key off the stack and branches by an offset, or fails when this leads
out of the code. -/
def Branches (load : Loader) (tracing : Bool) (frame : Frame) (m : Machine) (below : List Slot)
    (offset : Int32) : Prop :=
  ∃ log, if 0 ≤ frame.pc + offset.toInt ∧ frame.pc + offset.toInt < frame.method.code.size then
    step load tracing ⟨frame, m⟩ = .ok .next ⟨{ frame with
      stack := ⟨below⟩, current := frame.pc, pc := (frame.pc + offset.toInt).toNat },
        { m with log }⟩
  else ∃ pc, step load tracing ⟨frame, m⟩ =
    .error (.fault (.malformed (.branchLeaves frame.pc offset frame.method.label))) ⟨{ frame with
      stack := ⟨below⟩, current := frame.pc, pc }, { m with log }⟩

theorem jump_apply (offset : Int32) (frame : Frame) (m : Machine) :
    jump offset ⟨frame, m⟩ =
      if 0 ≤ frame.current + offset.toInt ∧
          frame.current + offset.toInt < frame.method.code.size then
        .ok () ⟨{ frame with pc := (frame.current + offset.toInt).toNat }, m⟩
      else
        .error (.fault (.malformed (.branchLeaves frame.current offset frame.method.label)))
          ⟨frame, m⟩ := by
  have hjump : frame.jump offset =
      if frame.current + offset.toInt < 0 ∨
          frame.method.code.size ≤ (frame.current + offset.toInt).toNat then
        .error (.malformed (.branchLeaves frame.current offset frame.method.label))
      else .ok { frame with pc := (frame.current + offset.toInt).toNat } := rfl
  unfold jump
  rw [get_bind, hjump]
  split
  next hleaves =>
      rw [if_neg (by omega)]
      rfl
  next hstays =>
      rw [if_pos (by omega)]
      rfl

theorem thenNext_congr {x y : Exec Unit} {a b : Activation} (h : x a = y b) :
    thenNext x a = thenNext y b := by
  unfold thenNext
  cases hy : y b with
  | ok u c => rw [bind_of_ok (h.trans hy), bind_of_ok hy]
  | error e c => rw [bind_of_error (h.trans hy), bind_of_error hy]

theorem execute_switch (s : Switch) (hstack : frame.stack = ⟨.int key :: below⟩) :
    s.instruction.execute load ⟨frame, m⟩ =
      thenNext (jump (s.target key)) ⟨{ frame with stack := ⟨below⟩ }, m⟩ := by
  have hpop : (liftM OperandStack.popInt : Exec Int32) ⟨frame, m⟩ =
      .ok key ⟨{ frame with stack := ⟨below⟩ }, m⟩ := by
    rw [Thread.onStack_apply, hstack]
    rfl
  cases s with
  | table default low high offsets => exact thenNext_congr (bind_of_ok hpop)
  | lookup default pairs => exact thenNext_congr (bind_of_ok hpop)

/-- Where a switch stands, the next step branches by the offset of the key on top of the stack. -/
theorem branches_of_standsAt {s : Switch} (hs : s.WellFormed)
    (h : s.StandsAt frame.method.code frame.pc) (hstack : frame.stack = ⟨.int key :: below⟩) :
    Branches load tracing frame m below (s.target key) := by
  obtain ⟨behind, hnext⟩ := h.next hs
  obtain ⟨log, hstep⟩ := step_eq_execute hnext load tracing m
  have hexecute := (hstep frame.stack).trans (execute_switch s hstack)
  have hjump := jump_apply (s.target key)
    { frame with stack := ⟨below⟩, current := frame.pc, pc := behind } { m with log }
  refine ⟨log, ?_⟩
  split
  next hstays =>
      rw [if_pos hstays] at hjump
      exact hexecute.trans (bind_of_ok hjump)
  next hleaves =>
      rw [if_neg hleaves] at hjump
      exact ⟨behind, hexecute.trans (bind_of_error hjump)⟩

end Exec

/-- A switch takes the key off the stack and branches by the one offset that is listed for the key,
or by the default if none is, and fails if this leads out of the code.  A table and a list of pairs
with the same keys and offsets therefore branch by the same offset. -/
theorem switches_branch_alike :
    (∀ {s : Switch}, s.WellFormed → ∀ key, ∃ offset, s.Selects key offset ∧
      (∀ other, s.Selects key other → other = offset) ∧
      ∀ {load : Loader} {tracing : Bool} {frame : Frame} {m : Machine} {below : List Slot},
        s.StandsAt frame.method.code frame.pc → frame.stack = ⟨.int key :: below⟩ →
          Exec.Branches load tracing frame m below offset) ∧
    ∀ {default low high : Int32} {offsets : List Int32},
      (Switch.table default low high offsets).WellFormed → offsets.length < 2 ^ 31 →
      ∀ key, ∃ offset,
        (Switch.table default low high offsets).Selects key offset ∧
        ∀ {load : Loader} {tracing : Bool} {frame frame' : Frame} {m m' : Machine}
          {below below' : List Slot},
          (Switch.table default low high offsets).StandsAt frame.method.code frame.pc →
          (Switch.lookup default (Switch.table default low high offsets).cases).StandsAt
            frame'.method.code frame'.pc →
          frame.stack = ⟨.int key :: below⟩ → frame'.stack = ⟨.int key :: below'⟩ →
            Exec.Branches load tracing frame m below offset ∧
              Exec.Branches load tracing frame' m' below' offset := by
  constructor
  · intro s hs key
    refine ⟨s.target key, s.selects_target hs key, ?_, ?_⟩
    · intro other hother
      exact hother.unique hs (s.selects_target hs key)
    · intro load tracing frame m below hstands hstack
      exact Exec.branches_of_standsAt hs hstands hstack
  · intro default low high offsets hs hlength key
    have hlookup := hs.cases hlength
    have hselects := Switch.selects_target hs key
    have hselects' := Switch.selects_target hlookup key
    -- both list the same keys with the same offsets, so that the same offset is selected
    have hsame : (Switch.lookup default (Switch.table default low high offsets).cases).target key =
        (Switch.table default low high offsets).target key :=
      Switch.Selects.unique (s := .table default low high offsets) hs hselects' hselects
    refine ⟨_, hselects, ?_⟩
    intro load tracing frame frame' m m' below below' htable hpairs hstack hstack'
    refine ⟨Exec.branches_of_standsAt hs htable hstack, ?_⟩
    rw [← hsame]
    exact Exec.branches_of_standsAt hlookup hpairs hstack'

namespace LargestKeys

/-!
The two largest keys, listed by a table and by pairs.  Two bytes that are not zero stand between the
instruction at address one and its operands.
-/

def table : Switch := .table 20 2147483646 2147483647 [24, -1]

def pairs : Switch := .lookup 20 table.cases

def code (s : Switch) : Array UInt8 :=
  ([0x1A, s.opcode, 7, 7] ++ s.bytes ++ [0xB1, 0xB1, 0xB1, 0xB1]).toArray

def frame (s : Switch) (key : Int32) : Frame :=
  { Frame.enter ⟨"A", "choose", "(I)V", .ofWord 0x0009, ⟨[.int], .void⟩, 2, 1, code s, [], rfl⟩
      (.mk ⟨"A", .ofWord 0x0021, [], [], []⟩ none []) ⟨"A", ⟨#[.unusable]⟩⟩ [] with
    pc := 1, stack := ⟨[.int key, .int 3]⟩ }

def load : Loader := (Sample.host []).load 0

theorem table_stands : table.StandsAt (code table) 1 := by
  refine ⟨by decide, 4, by decide, by decide, by decide, ?_⟩
  decide +kernel

theorem pairs_stand : pairs.StandsAt (code pairs) 1 := by
  refine ⟨by decide, 4, by decide, by decide, by decide, ?_⟩
  decide +kernel

theorem largest_key_branches_back :
    ∃ log log', Exec.step load true ⟨frame table 2147483647, Machine.empty⟩ =
        .ok .next ⟨{ frame table 0 with stack := ⟨[.int 3]⟩, current := 1, pc := 0 },
          { Machine.empty with log }⟩ ∧
      Exec.step load true ⟨frame pairs 2147483647, Machine.empty⟩ =
        .ok .next ⟨{ frame pairs 0 with stack := ⟨[.int 3]⟩, current := 1, pc := 0 },
          { Machine.empty with log := log' }⟩ := by
  have hs : (Switch.table 20 2147483646 2147483647 [24, -1]).WellFormed := ⟨by decide, by decide⟩
  obtain ⟨offset, hselects, hbranch⟩ := switches_branch_alike.2 hs (by decide) 2147483647
  obtain ⟨selected, -, hunique, -⟩ := switches_branch_alike.1 hs 2147483647
  have hoffset : offset = -1 :=
    (hunique offset hselects).trans (hunique (-1) (.inl (by decide +kernel))).symm
  subst hoffset
  obtain ⟨⟨log, htable⟩, ⟨log', hpairs⟩⟩ := @hbranch load true (frame table 2147483647)
    (frame pairs 2147483647) Machine.empty Machine.empty _ _ table_stands pairs_stand rfl rfl
  rw [if_pos (by decide +kernel)] at htable hpairs
  exact ⟨log, log', htable, hpairs⟩

end LargestKeys

end Bytecode
