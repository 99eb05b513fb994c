import Bytecode.Proofs.ClassFile.RoundTrip

/-!
# Class files cut short

The answer of a reader depends on the bytes that it takes and on nothing behind them.  Where some of
these bytes are missing, it decides everything as before up to the first read that finds too little,
and fails there for want of input.  This holds inside attributes as well: the bytes of an attribute
are cut out before they are read, so nothing is read of one that is not there as a whole.
-/

namespace Bytecode

/-!
# Want of input
-/

inductive Malformed.Truncation : Malformed → Prop where
  | number : Truncation .truncated
  | block (wanted offset left : Nat) : Truncation (.overrun wanted offset left)

theorem Malformed.Truncation.message {e : Malformed} (h : e.Truncation) :
    ∃ rest, e.message = "truncated class descriptor" ++ rest := by
  cases h with
  | number => exact ⟨": failed to fill whole buffer", rfl⟩
  | block wanted offset left =>
      have hstart : toString "truncated class descriptor: " =
          "truncated class descriptor" ++ ": " := rfl
      unfold Malformed.message
      rw [hstart]
      simp only [String.append_assoc]
      exact ⟨_, rfl⟩

namespace Reader

variable {α β : Type} {reader : Reader α} {next : α → Reader β} {c c' : Cursor}

/-- The reader fails for want of input wherever only a part of the bytes is there. -/
def RunsShort (reader : Reader α) (bytes : List UInt8) : Prop :=
  ∀ offset front back, bytes = front ++ back → back ≠ [] →
    ∃ e : Malformed, reader ⟨offset, front⟩ = .error e ∧ e.Truncation

/-- Where the reader succeeds, the bytes that it takes decide its answer, and it needs all of
them. -/
def Steady (reader : Reader α) : Prop :=
  ∀ offset input value c, reader ⟨offset, input⟩ = .ok (value, c) →
    ∃ bytes, input = bytes ++ c.rest ∧ reader.Reads bytes value ∧ reader.RunsShort bytes

theorem runsShort_nil (reader : Reader α) : reader.RunsShort [] := by
  intro offset front back hsplit hback
  exact absurd (List.append_eq_nil_iff.mp hsplit.symm).2 hback

theorem bind_of_ok {a : α} (h : reader c = .ok (a, c')) : (reader >>= next) c = next a c' := by
  show Except.bind (reader c) _ = _
  rw [h]
  rfl

theorem bind_of_error {e : Malformed} (h : reader c = .error e) :
    (reader >>= next) c = .error e := by
  show Except.bind (reader c) _ = _
  rw [h]
  rfl

theorem bind_eq_ok {b : β} (h : (reader >>= next) c = .ok (b, c')) :
    ∃ a c₁, reader c = .ok (a, c₁) ∧ next a c₁ = .ok (b, c') := by
  cases hfirst : reader c with
  | error e =>
      rw [bind_of_error hfirst] at h
      cases h
  | ok p =>
      rw [bind_of_ok hfirst] at h
      exact ⟨p.1, p.2, rfl, h⟩

theorem RunsShort.bind {bytes bytes' : List UInt8} {value : α} (hshort : reader.RunsShort bytes)
    (hreads : reader.Reads bytes value) (hnext : (next value).RunsShort bytes') :
    (reader >>= next).RunsShort (bytes ++ bytes') := by
  intro offset front back hsplit hback
  -- the cut is in the bytes of the first reader, or these are there and it is behind them
  rcases List.append_eq_append_iff.mp hsplit with ⟨part, rfl, hrest⟩ | ⟨part, rfl, rfl⟩
  · rcases hnext (offset + bytes.length) part back hrest hback with ⟨e, he, htruncation⟩
    exact ⟨e, (bind_of_ok (hreads offset part)).trans he, htruncation⟩
  · cases part with
    | nil =>
        rcases hnext (offset + front.length) [] bytes' rfl hback with ⟨e, he, htruncation⟩
        have hfirst := hreads offset []
        simp only [List.append_nil] at hfirst
        exact ⟨e, (bind_of_ok hfirst).trans he, htruncation⟩
    | cons b part =>
        rcases hshort offset front (b :: part) rfl (List.cons_ne_nil b part) with
          ⟨e, he, htruncation⟩
        exact ⟨e, bind_of_error he, htruncation⟩

/-!
# Steady readers
-/

namespace Steady

theorem pure (value : α) : (Pure.pure value : Reader α).Steady := by
  intro offset input value' c h
  cases h
  exact ⟨[], rfl, Reads.pure value, runsShort_nil _⟩

theorem throw (e : Malformed) : (throw e : Reader α).Steady := by
  intro offset input value c h
  cases h

theorem throw_bind (e : Malformed) (next : α → Reader β) :
    ((MonadExcept.throw e : Reader α) >>= next).Steady := by
  intro offset input value c h
  cases h

theorem lift (outcome : Except Malformed α) : (liftM outcome : Reader α).Steady := by
  intro offset input value c h
  cases outcome with
  | error e => cases h
  | ok a =>
      cases h
      exact ⟨[], rfl, Reads.lift rfl, runsShort_nil _⟩

theorem bind (h : reader.Steady) (hnext : ∀ a, (next a).Steady) : (reader >>= next).Steady := by
  intro offset input value c hrun
  rcases bind_eq_ok hrun with ⟨a, c₁, hfirst, hsecond⟩
  rcases h offset input a c₁ hfirst with ⟨bytes, hinput, hreads, hshort⟩
  rcases hnext a c₁.offset c₁.rest value c hsecond with ⟨bytes', hrest, hreads', hshort'⟩
  exists bytes ++ bytes'
  constructor
  · rw [hinput, hrest, List.append_assoc]
  · exact ⟨hreads.bind hreads', hshort.bind hreads hshort'⟩

theorem ite {condition : Prop} [Decidable condition] {first second : Reader α}
    (h : first.Steady) (h' : second.Steady) : (if condition then first else second).Steady := by
  split
  · exact h
  · exact h'

theorem within (data : List UInt8) (reader : Reader α) : (Reader.within data reader).Steady :=
  (Steady.lift (reader ⟨0, data⟩)).bind fun _ => .pure _

theorem times (h : reader.Steady) (count : Nat) : (Reader.times reader count).Steady := by
  induction count with
  | zero => exact .pure []
  | succ count ih => exact h.bind fun _ => ih.bind fun _ => .pure _

theorem length_le (h : reader.Steady) {a : α} (hrun : reader c = .ok (a, c')) :
    c'.rest.length ≤ c.rest.length := by
  rcases h c.offset c.rest a c' hrun with ⟨bytes, hinput, -⟩
  rw [hinput, List.length_append]
  exact Nat.le_add_left _ _

end Steady

theorem u8_steady : u8.Steady := by
  intro offset input value c h
  cases input with
  | nil => cases h
  | cons b rest =>
      cases h
      refine ⟨[value], rfl, u8_reads value, ?_⟩
      intro offset' front back hsplit hback
      cases front with
      | nil => exact ⟨.truncated, rfl, .number⟩
      | cons b front =>
          have hnil := (List.cons.inj hsplit).2.symm
          exact absurd (List.append_eq_nil_iff.mp hnil).2 hback

theorem u16_steady : u16.Steady :=
  u8_steady.bind fun _ => u8_steady.bind fun _ => .pure _

theorem u32_steady : u32.Steady :=
  u16_steady.bind fun _ => u16_steady.bind fun _ => .pure _

theorem u64_steady : u64.Steady :=
  u32_steady.bind fun _ => u32_steady.bind fun _ => .pure _

theorem block_apply (count : Nat) (c : Cursor) :
    block count c =
      if count ≤ c.rest.length then
        .ok (c.rest.take count, ⟨c.offset + count, c.rest.drop count⟩)
      else .error (.overrun count c.offset c.rest.length) := by
  show (if count ≤ c.rest.length then _ else _ : Reader (List UInt8)) c = _
  split
  · rfl
  · rfl

theorem block_eq_ok {count : Nat} {data : List UInt8} (h : block count c = .ok (data, c')) :
    data.length = count ∧ c.rest = data ++ c'.rest := by
  rw [block_apply] at h
  split at h
  next hfits =>
      cases h
      exact ⟨List.length_take_of_le hfits, (List.take_append_drop count c.rest).symm⟩
  next => cases h

theorem block_steady (count : Nat) : (block count).Steady := by
  intro offset input value c h
  rcases block_eq_ok h with ⟨rfl, hinput⟩
  refine ⟨value, hinput, block_reads value, ?_⟩
  intro offset' front back hsplit hback
  have hcut : ¬ value.length ≤ front.length := by
    have hpositive := List.length_pos_iff.mpr hback
    rw [hsplit, List.length_append]
    omega
  rw [block_apply, if_neg hcut]
  exact ⟨_, rfl, .block _ _ _⟩

theorem decodeText_steady (bytes : List UInt8) : (decodeText bytes).Steady := by
  unfold decodeText
  split
  · exact .pure _
  · exact .throw _

theorem constantOfTag_steady (index : Nat) (tag : UInt8) : (constantOfTag index tag).Steady := by
  have hone {γ : Type} (f : UInt16 → γ) : Steady do return f (← u16) :=
    u16_steady.bind fun _ => .pure _
  have htwo (f : UInt16 → UInt16 → Constant) : Steady do return f (← u16) (← u16) :=
    u16_steady.bind fun _ => u16_steady.bind fun _ => .pure _
  unfold constantOfTag
  split
  · exact u16_steady.bind fun length =>
      (block_steady _).bind fun bytes => (decodeText_steady bytes).bind fun _ => .pure _
  · exact u32_steady.bind fun _ => .pure _
  · exact u32_steady.bind fun _ => .pure _
  · exact u64_steady.bind fun _ => .pure _
  · exact u64_steady.bind fun _ => .pure _
  · exact hone _
  · exact hone _
  · exact htwo _
  · exact htwo _
  · exact htwo _
  · exact htwo _
  · exact u8_steady.bind fun _ => hone _
  · exact hone _
  · exact htwo _
  · exact htwo _
  · exact hone _
  · exact hone _
  · exact .throw _

theorem constants_steady (entries : Array Constant) (remaining : Nat) :
    (constants entries remaining).Steady := by
  fun_induction constants entries remaining with
  | case1 entries => exact .pure entries
  | case2 entries =>
      exact u8_steady.bind fun tag => (constantOfTag_steady _ tag).bind fun _ =>
        .ite (.throw_bind _ _) (.pure _)
  | case3 entries remaining ihwide ihnarrow =>
      exact u8_steady.bind fun tag => (constantOfTag_steady _ tag).bind fun entry =>
        .ite (ihwide entry) (ihnarrow entry)

theorem pool_steady : pool.Steady :=
  u16_steady.bind fun _ =>
    .ite (.throw_bind _ _) ((constants_steady _ _).bind fun _ => .pure _)

theorem handler_steady : handler.Steady :=
  u16_steady.bind fun _ => u16_steady.bind fun _ => u16_steady.bind fun _ =>
    u16_steady.bind fun _ => .pure _

theorem singleAttribute_steady (p : Pool) (nested : Reader (List Attribute)) :
    (singleAttribute p nested).Steady :=
  u16_steady.bind fun _ => (Steady.lift _).bind fun _ => u32_steady.bind fun _ =>
    (block_steady _).bind fun data =>
      .ite ((Steady.within data u16).bind fun _ => .pure _) (.ite (.within data _) (.pure _))

theorem attributes_steady (p : Pool) (depth : Nat) : (attributes p depth).Steady := by
  cases depth with
  | zero => exact .throw _
  | succ depth => exact u16_steady.bind fun _ => (singleAttribute_steady p _).times _

theorem member_steady (p : Pool) (depth : Nat) : (member p depth).Steady :=
  u16_steady.bind fun _ => u16_steady.bind fun _ => (Steady.lift _).bind fun _ =>
    u16_steady.bind fun _ => (Steady.lift _).bind fun _ =>
      (attributes_steady p depth).bind fun _ => .pure _

theorem members_steady (p : Pool) (depth : Nat) : (members p depth).Steady :=
  u16_steady.bind fun _ => (member_steady p depth).times _

theorem interfaces_steady (p : Pool) (count : Nat) :
    (times (do p.className (← u16)) count).Steady :=
  (u16_steady.bind fun _ => Steady.lift _).times count

theorem classFile_steady (depth : Nat) : (classFile depth).Steady :=
  u32_steady.bind fun _ => .ite (.throw_bind _ _) <|
    u16_steady.bind fun _ => u16_steady.bind fun _ => .ite (.throw_bind _ _) <|
      pool_steady.bind fun p => u16_steady.bind fun _ => u16_steady.bind fun _ =>
        (Steady.lift _).bind fun _ => u16_steady.bind fun _ => (Steady.lift _).bind fun _ =>
          u16_steady.bind fun _ => (interfaces_steady p _).bind fun _ =>
            (members_steady p depth).bind fun _ => (members_steady p depth).bind fun _ =>
              (attributes_steady p depth).bind fun _ => .pure _

/-!
# Depth

Attributes are read to a given depth, which is a part of the reader and grows with the input.  Below
the length of the input it makes no difference.
-/

/-- The readers do the same on inputs that are shorter than the bound. -/
def AgreeBelow (bound : Nat) (reader other : Reader α) : Prop :=
  ∀ c : Cursor, c.rest.length < bound → reader c = other c

namespace AgreeBelow

variable {bound : Nat} {other : Reader α} {next' : α → Reader β}

theorem refl (bound : Nat) (reader : Reader α) : AgreeBelow bound reader reader :=
  fun _ _ => rfl

theorem throw_bind (bound : Nat) (e : Malformed) (next next' : α → Reader β) :
    AgreeBelow bound ((throw e : Reader α) >>= next) (throw e >>= next') :=
  fun _ _ => rfl

theorem bind (h : AgreeBelow bound reader other) (hsteady : reader.Steady)
    (hnext : ∀ a, AgreeBelow bound (next a) (next' a)) :
    AgreeBelow bound (reader >>= next) (other >>= next') := by
  intro c hc
  cases hfirst : reader c with
  | error e => rw [bind_of_error hfirst, bind_of_error ((h c hc).symm.trans hfirst)]
  | ok p =>
      rw [bind_of_ok hfirst, bind_of_ok ((h c hc).symm.trans hfirst)]
      exact hnext p.1 p.2 (Nat.lt_of_le_of_lt (hsteady.length_le hfirst) hc)

theorem after (hsteady : reader.Steady) (hnext : ∀ a, AgreeBelow bound (next a) (next' a)) :
    AgreeBelow bound (reader >>= next) (reader >>= next') :=
  (refl bound reader).bind hsteady hnext

theorem ite {condition : Prop} [Decidable condition] {first first' second second' : Reader α}
    (h : AgreeBelow bound first first') (h' : AgreeBelow bound second second') :
    AgreeBelow bound (if condition then first else second)
      (if condition then first' else second') := by
  split
  · exact h
  · exact h'

theorem times (h : AgreeBelow bound reader other) (hsteady : reader.Steady) (count : Nat) :
    AgreeBelow bound (Reader.times reader count) (Reader.times other count) := by
  induction count with
  | zero => exact refl bound _
  | succ count ih =>
      exact h.bind hsteady fun _ => ih.bind (hsteady.times count) fun _ => refl bound _

theorem block_bind {count : Nat} {next next' : List UInt8 → Reader β}
    (hnext : ∀ data, data.length < bound → AgreeBelow bound (next data) (next' data)) :
    AgreeBelow bound (block count >>= next) (block count >>= next') := by
  intro c hc
  cases hblock : block count c with
  | error e => rw [bind_of_error hblock, bind_of_error hblock]
  | ok p =>
      have hlength := congrArg List.length (block_eq_ok hblock).2
      rw [List.length_append] at hlength
      rw [bind_of_ok hblock, bind_of_ok hblock]
      exact hnext p.1 (by omega) p.2 (by omega)

theorem within {data : List UInt8} (h : AgreeBelow bound reader other)
    (hdata : data.length < bound) :
    AgreeBelow bound (Reader.within data reader) (Reader.within data other) := by
  intro c _
  have hrun : reader.run ⟨0, data⟩ = other.run ⟨0, data⟩ := h ⟨0, data⟩ hdata
  unfold Reader.within
  rw [hrun]

theorem u16_bind {next next' : UInt16 → Reader β}
    (hnext : ∀ w, AgreeBelow bound (next w) (next' w)) :
    AgreeBelow (bound + 1) (u16 >>= next) (u16 >>= next') := by
  intro c hc
  cases hnumber : u16 c with
  | error e => rw [bind_of_error hnumber, bind_of_error hnumber]
  | ok p =>
      have hshorter : p.2.rest.length < c.rest.length := by
        rcases c with ⟨offset, rest⟩
        rcases bind_eq_ok hnumber with ⟨b, c₁, hbyte, hrest⟩
        have hle := (u8_steady.bind fun _ => Steady.pure _).length_le hrest
        cases rest with
        | nil => cases hbyte
        | cons b rest =>
            cases hbyte
            exact Nat.lt_succ_of_le hle
      rw [bind_of_ok hnumber, bind_of_ok hnumber]
      exact hnext p.1 p.2 (by omega)

end AgreeBelow

variable {bound depth depth' : Nat}

theorem code_agree {nested nested' : Reader (List Attribute)}
    (h : AgreeBelow bound nested nested') (hsteady : nested.Steady) :
    AgreeBelow bound (code nested) (code nested') :=
  .after u16_steady fun _ => .after u16_steady fun _ => .after u32_steady fun _ =>
    .after (block_steady _) fun _ => .after u16_steady fun _ =>
      .after ((handler_steady).times _) fun _ => h.bind hsteady fun _ => .refl bound _

theorem singleAttribute_agree (p : Pool) {nested nested' : Reader (List Attribute)}
    (h : AgreeBelow bound nested nested') (hsteady : nested.Steady) :
    AgreeBelow bound (singleAttribute p nested) (singleAttribute p nested') :=
  .after u16_steady fun _ => .after (.lift _) fun _ => .after u32_steady fun _ =>
    .block_bind fun _ hdata =>
      .ite (.refl bound _) (.ite ((code_agree h hsteady).within hdata) (.refl bound _))

theorem attributes_agree (p : Pool) (hdepth : bound ≤ depth) (hdepth' : bound ≤ depth') :
    AgreeBelow bound (attributes p depth) (attributes p depth') := by
  -- the list of nested attributes stands in a shorter input, which its depth still exceeds
  induction bound generalizing depth depth' with
  | zero =>
      intro c hc
      exact absurd hc (Nat.not_lt_zero _)
  | succ bound ih =>
      obtain ⟨depth, rfl⟩ := Nat.exists_eq_add_of_lt hdepth
      obtain ⟨depth', rfl⟩ := Nat.exists_eq_add_of_lt hdepth'
      have hnested := ih (Nat.le_add_right bound depth) (Nat.le_add_right bound depth')
      exact .u16_bind fun count => (singleAttribute_agree p hnested
        (attributes_steady p _)).times (singleAttribute_steady p _) count.toNat

theorem member_agree (p : Pool) (hdepth : bound ≤ depth) (hdepth' : bound ≤ depth') :
    AgreeBelow bound (member p depth) (member p depth') :=
  .after u16_steady fun _ => .after u16_steady fun _ => .after (.lift _) fun _ =>
    .after u16_steady fun _ => .after (.lift _) fun _ =>
      (attributes_agree p hdepth hdepth').bind (attributes_steady p depth) fun _ => .refl bound _

theorem members_agree (p : Pool) (hdepth : bound ≤ depth) (hdepth' : bound ≤ depth') :
    AgreeBelow bound (members p depth) (members p depth') :=
  .after u16_steady fun count =>
    (member_agree p hdepth hdepth').times (member_steady p depth) count.toNat

theorem classFile_agree (hdepth : bound ≤ depth) (hdepth' : bound ≤ depth') :
    AgreeBelow bound (classFile depth) (classFile depth') :=
  .after u32_steady fun _ => .ite (.throw_bind bound _ _ _) <|
    .after u16_steady fun _ => .after u16_steady fun _ => .ite (.throw_bind bound _ _ _) <|
      .after pool_steady fun p => .after u16_steady fun _ => .after u16_steady fun _ =>
        .after (.lift _) fun _ => .after u16_steady fun _ => .after (.lift _) fun _ =>
          .after u16_steady fun _ => .after (interfaces_steady p _) fun _ =>
            (members_agree p hdepth hdepth').bind (members_steady p depth) fun _ =>
              (members_agree p hdepth hdepth').bind (members_steady p depth) fun _ =>
                (attributes_agree p hdepth hdepth').bind (attributes_steady p depth) fun _ =>
                  .refl bound _

end Reader

/-!
# Whole files
-/

namespace ClassFile

theorem read_eq {bytes : List UInt8} {depth : Nat} (h : bytes.length < depth) :
    ClassFile.read bytes = (Reader.classFile depth ⟨0, bytes⟩).map Prod.fst := by
  have hagree := Reader.classFile_agree (Nat.le_refl (bytes.length + 1)) h ⟨0, bytes⟩
    (Nat.lt_succ_self bytes.length)
  rw [← hagree]
  rfl

/-- The front of the input that the reader takes decides the answer, at every depth that exceeds the
input. -/
theorem exists_front {bytes : List UInt8} {file : ClassFile} (h : ClassFile.read bytes = .ok file) :
    ∃ front back, bytes = front ++ back ∧ ∀ depth, bytes.length < depth →
      (Reader.classFile depth).Reads front file ∧ (Reader.classFile depth).RunsShort front := by
  have hrun : ∃ c, Reader.classFile (bytes.length + 1) ⟨0, bytes⟩ = .ok (file, c) := by
    rw [read_eq (Nat.lt_succ_self bytes.length)] at h
    cases hresult : Reader.classFile (bytes.length + 1) ⟨0, bytes⟩ with
    | error e =>
        rw [hresult] at h
        cases h
    | ok p =>
        rw [hresult] at h
        cases h
        exact ⟨p.2, rfl⟩
  rcases hrun with ⟨c, hfirst⟩
  rcases Reader.classFile_steady _ 0 bytes file c hfirst with ⟨front, hbytes, -⟩
  refine ⟨front, c.rest, hbytes, fun depth hdepth => ?_⟩
  have hsame := Reader.classFile_agree (Nat.le_refl (bytes.length + 1)) hdepth ⟨0, bytes⟩
    (Nat.lt_succ_self bytes.length)
  rcases Reader.classFile_steady depth 0 bytes file c (hsame.symm.trans hfirst) with
    ⟨front', hbytes', hdecided⟩
  rwa [← List.append_cancel_right (hbytes.symm.trans hbytes')] at hdecided

/-- Some bytes at the front of a class file decide what is read.  Whatever stands behind them, the
same class is read; where some of them are missing, the input is found truncated. -/
theorem read_of_front {bytes : List UInt8} {file : ClassFile}
    (h : ClassFile.read bytes = .ok file) :
    ∃ count ≤ bytes.length,
      (∀ other : List UInt8, other.take count = bytes.take count →
        ClassFile.read other = .ok file) ∧
      ∀ shorter < count, ∃ e rest, ClassFile.read (bytes.take shorter) = .error e ∧
        e.message = "truncated class descriptor" ++ rest := by
  rcases exists_front h with ⟨front, back, rfl, hdecided⟩
  refine ⟨front.length, by simp, ?_, ?_⟩
  · intro other hother
    rw [List.take_left] at hother
    have hsplit : front ++ other.drop front.length = other := by
      rw [← List.take_append_drop front.length other, hother, List.drop_left]
    have hread := (hdecided (max (front ++ back).length other.length + 1) (by omega)).1 0
      (other.drop front.length)
    rw [hsplit] at hread
    rw [read_eq (Nat.lt_succ_of_le (Nat.le_max_right _ _)), hread]
    rfl
  · intro shorter hshorter
    -- what is cut off belongs to the bytes that the reader takes
    have hcut : (front ++ back).take shorter = front.take shorter :=
      List.take_append_of_le_length (Nat.le_of_lt hshorter)
    have hlength : (front.take shorter).length < (front ++ back).length + 1 := by
      rw [← hcut]
      exact Nat.lt_succ_of_le (List.length_take_le' shorter _)
    have hmissing : front.drop shorter ≠ [] := by
      rw [Ne, List.drop_eq_nil_iff]
      exact Nat.not_le_of_lt hshorter
    have hdepth := hdecided _ (Nat.lt_succ_self _)
    rcases hdepth.2 0 _ _ (List.take_append_drop shorter front).symm hmissing with
      ⟨e, he, htruncation⟩
    rcases htruncation.message with ⟨rest, hmessage⟩
    refine ⟨e, rest, ?_, hmessage⟩
    rw [hcut, read_eq hlength, he]
    rfl

end ClassFile

theorem ClassLayout.counter_decided_by_front :
    ∃ file, ClassFile.read (counter.bytes ++ [0, 1]) = .ok file ∧
      ∃ count ≤ (counter.bytes ++ [0, 1]).length,
        (∀ other : List UInt8, other.take count = (counter.bytes ++ [0, 1]).take count →
          ClassFile.read other = .ok file) ∧
        ∀ shorter < count, ∃ e rest,
          ClassFile.read ((counter.bytes ++ [0, 1]).take shorter) = .error e ∧
          e.message = "truncated class descriptor" ++ rest := by
  have hlonger : counter.bytes.length ≤ (counter.bytes ++ [0, 1]).length := by
    rw [List.length_append]
    exact Nat.le_add_right _ _
  rcases Reader.classFile_reads counter_wellFormed hlonger with ⟨file, -, hreads⟩
  have hread : ClassFile.read (counter.bytes ++ [0, 1]) = .ok file := by
    rw [ClassFile.read_eq (Nat.lt_succ_self _), hreads 0 [0, 1]]
    rfl
  exact ⟨file, hread, ClassFile.read_of_front hread⟩

end Bytecode
