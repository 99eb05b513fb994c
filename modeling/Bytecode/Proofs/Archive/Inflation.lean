import Bytecode.Proofs.Archive.Tokens

/-!
# Compressed data

Data is inflated to what the tokens of its blocks write.  Each block is stored bytes, or tokens
spelled with a pair of prefix codes.
-/

namespace Bytecode
namespace Archive
namespace Inflater

variable {α β : Type} {size : ℕ}

/-!
# Stored blocks
-/

theorem numberOfBits_lt (taken : List Bool) : numberOfBits taken < 2 ^ taken.length := by
  induction taken with
  | nil => exact Nat.one_pos
  | cons b rest ih =>
      have hb := b.toNat_lt
      rw [numberOfBits, List.length_cons, Nat.pow_succ]
      omega

theorem testBit_numberOfBits (taken : List Bool) (i : ℕ) :
    (numberOfBits taken).testBit i = taken[i]?.getD false := by
  induction taken generalizing i with
  | nil => exact Nat.zero_testBit i
  | cons b rest ih =>
      have hlow : (b.toNat + 2 * numberOfBits rest) / 2 = numberOfBits rest := by
        have hb := b.toNat_lt
        omega
      cases i with
      | zero => cases b <;> simp [numberOfBits, Nat.testBit_zero]
      | succ i => rw [numberOfBits, Nat.testBit_succ, hlow, ih, List.getElem?_cons_succ]

theorem bitsOfByte_numberOfBits {taken : List Bool} (h : taken.length = 8) :
    bitsOfByte (numberOfBits taken).toUInt8 = taken := by
  have hless := numberOfBits_lt taken
  rw [h] at hless
  have hbyte : (numberOfBits taken).toUInt8.toNat = numberOfBits taken := Nat.mod_eq_of_lt hless
  refine List.ext_getElem? fun i => ?_
  rw [bitsOfByte, hbyte, List.getElem?_map]
  by_cases hi : i < 8
  · rw [List.getElem?_range hi, Option.map_some, testBit_numberOfBits,
      List.getElem?_eq_getElem (h ▸ hi)]
    rfl
  · rw [List.getElem?_eq_none (by simpa using hi), List.getElem?_eq_none (by omega)]
    rfl

theorem numberOfBits_bitsOfByte (byte : UInt8) : numberOfBits (bitsOfByte byte) = byte.toNat := by
  refine Nat.eq_of_testBit_eq fun i => ?_
  rw [testBit_numberOfBits, bitsOfByte, List.getElem?_map]
  by_cases hi : i < 8
  · rw [List.getElem?_range hi]
    rfl
  · rw [List.getElem?_eq_none (by simpa using hi)]
    have hpower := Nat.pow_le_pow_right (show 0 < 2 by decide) (Nat.le_of_not_lt hi)
    exact (Nat.testBit_lt_two_pow (Nat.lt_of_lt_of_le byte.toNat_lt hpower)).symm

theorem copyBytes_means (count : ℕ) :
    Means size (copyBytes count) fun _ taken tokens _ => ∃ data : List UInt8,
      data.length = count ∧ taken = bitsOf data ∧ tokens = data.map Token.literal := by
  induction count with
  | zero =>
      refine (means_pure ()).congr fun position taken tokens a => ?_
      constructor
      · rintro ⟨rfl, rfl, rfl⟩
        exact ⟨[], rfl, rfl, rfl⟩
      · rintro ⟨data, hlength, rfl, rfl⟩
        obtain rfl := List.length_eq_zero_iff.mp hlength
        exact ⟨rfl, rfl, rfl⟩
  | succ count ih =>
      refine ((bits_means 8).bind_reading fun n =>
        (put_means n.toUInt8).bind_writing ih).congr fun position taken tokens a => ?_
      constructor
      · rintro ⟨_, u, v, ⟨hlength, rfl⟩, ⟨_, ⟨data, rfl, rfl, rfl⟩, rfl⟩, rfl⟩
        refine ⟨(numberOfBits u).toUInt8 :: data, rfl, ?_, rfl⟩
        rw [bitsOf_cons, bitsOfByte_numberOfBits hlength]
      · rintro ⟨data, hlength, rfl, rfl⟩
        obtain ⟨byte, data, rfl⟩ := List.exists_cons_of_length_eq_add_one hlength
        refine ⟨_, bitsOfByte byte, bitsOf data, ⟨rfl, rfl⟩,
          ⟨_, ⟨data, Nat.succ.inj hlength, rfl, rfl⟩, ?_⟩, rfl⟩
        rw [numberOfBits_bitsOfByte, List.map_cons]
        exact congrArg (Token.literal · :: data.map Token.literal) UInt8.ofNat_toNat.symm

def Padding (position : ℕ) (taken : List Bool) : Prop :=
  taken.length < 8 ∧ (position + taken.length) % 8 = 0

theorem align_means : Means size align fun position taken tokens _ =>
    tokens = [] ∧ Padding position taken := by
  intro s hs a s'
  have hrun : align.run s = some ((), { s with position := (s.position + 7) / 8 * 8 }) := rfl
  have hahead := s.ahead_length
  have hposition := hs.position_le
  rw [hs.size_eq] at hahead
  have hafter {taken : List Bool} (h : Padding s.position taken) :
      ({ s with position := (s.position + 7) / 8 * 8 } : Inflater) = s.after taken [] := by
    obtain ⟨hless, hwhole⟩ := h
    have hnext : (s.position + 7) / 8 * 8 = s.position + taken.length := by omega
    rw [hnext]
    rfl
  rw [hrun]
  constructor
  · intro h
    cases h
    have hpadding : Padding s.position
        (s.ahead.take ((s.position + 7) / 8 * 8 - s.position)) := by
      rw [Padding, List.length_take, hahead]
      omega
    exact ⟨_, [], ⟨rfl, hpadding⟩, List.take_prefix _ _, hafter hpadding⟩
  · rintro ⟨taken, _, ⟨rfl, hpadding⟩, -, rfl⟩
    rw [hafter hpadding]

inductive Stored (position : ℕ) : List Bool → List Token → Prop
  | bytes {padding count complement : List Bool} {data : List UInt8}
      (hpadding : Padding position padding) (hcount : count.length = 16)
      (hcomplement : complement.length = 16)
      (hsum : numberOfBits count + numberOfBits complement = 0xFFFF)
      (hdata : data.length = numberOfBits count) :
      Stored position (padding ++ (count ++ (complement ++ bitsOf data)))
        (data.map Token.literal)

theorem storedBlock_means : Means size storedBlock fun position taken tokens _ =>
    Stored position taken tokens := by
  refine (align_means.bind fun _ => (bits_means 16).bind_reading fun length =>
    (bits_means 16).bind_reading fun complement =>
      (copyBytes_means length).unless).congr fun position taken tokens a => ?_
  constructor
  · rintro ⟨⟨⟩, padding, _, _, back, ⟨rfl, hpadding⟩, ⟨_, count, _, ⟨hcount, rfl⟩,
      ⟨_, complement, _, ⟨hcomplement, rfl⟩, ⟨hsum, data, hdata, rfl, rfl⟩, rfl⟩, rfl⟩, rfl, rfl⟩
    exact .bytes hpadding hcount hcomplement (not_not.mp hsum) hdata
  · rintro ⟨hpadding, hcount, hcomplement, hsum, hdata⟩
    exact ⟨(), _, _, [], _, ⟨rfl, hpadding⟩, ⟨_, _, _, ⟨hcount, rfl⟩,
      ⟨_, _, _, ⟨hcomplement, rfl⟩, ⟨not_not.mpr hsum, _, hdata, rfl, rfl⟩, rfl⟩, rfl⟩, rfl, rfl⟩

/-!
# Coded blocks
-/

/-- Tokens spelled with two codes, up to the end of the block. -/
inductive Coded (literals distances : PrefixCode) : List Bool → List Token → Prop
  | done {u : List Bool} (h : (u, 256) ∈ literals.words) : Coded literals distances u []
  | literal {u v : List Bool} {symbol : ℕ} {rest : List Token}
      (h : (u, symbol) ∈ literals.words) (hsymbol : symbol < 256)
      (hrest : Coded literals distances v rest) :
      Coded literals distances (u ++ v) (.literal symbol.toUInt8 :: rest)
  | copy {u v x y z : List Bool} {symbol length code distance : ℕ} {rest : List Token}
      (h : (u, symbol) ∈ literals.words) (hsymbol : 256 < symbol)
      (hlength : Extended lengthTable (symbol - 257) x length)
      (hcode : (y, code) ∈ distances.words)
      (hdistance : Extended distanceTable code z distance)
      (hrest : Coded literals distances v rest) :
      Coded literals distances (u ++ (x ++ (y ++ (z ++ v)))) (.copy distance length :: rest)

theorem codedBlock_means (literals distances : PrefixCode) (count : ℕ) :
    Means size (codedBlock literals distances count) fun _ taken tokens _ =>
      Coded literals distances taken tokens ∧ tokens.length < count := by
  -- each round of the loop writes one token, and the last round none
  induction count with
  | zero =>
      refine means_failure.congr fun position taken tokens a => ⟨False.elim, ?_⟩
      exact fun h => absurd h.2 (Nat.not_lt_zero _)
  | succ count ih =>
      refine ((symbol_means literals).bind_reading fun s =>
        (means_pure ()).ite (((put_means s.toUInt8).bind_writing ih).ite
          ((extended_means lengthTable (s - 257)).bind_reading fun length =>
            (symbol_means distances).bind_reading fun code =>
              (extended_means distanceTable code).bind_reading fun distance =>
                (repeatOutput_means distance length).bind_writing ih))).congr
        fun position taken tokens a => ?_
      constructor
      · rintro ⟨s, u, v, hword, h, rfl⟩
        split_ifs at h with hend hliteral
        · obtain ⟨rfl, rfl, -⟩ := h
          rw [List.append_nil]
          exact ⟨.done (hend ▸ hword), Nat.succ_pos _⟩
        · obtain ⟨rest, ⟨hrest, hcount⟩, rfl⟩ := h
          exact ⟨.literal hword hliteral hrest, Nat.succ_lt_succ hcount⟩
        · obtain ⟨length, x, _, hlength, ⟨code, y, _, hcode, ⟨distance, z, v, hdistance,
            ⟨rest, ⟨hrest, hcount⟩, rfl⟩, rfl⟩, rfl⟩, rfl⟩ := h
          exact ⟨.copy hword (by omega) hlength hcode hdistance hrest, Nat.succ_lt_succ hcount⟩
      · rintro ⟨hcoded, hcount⟩
        cases hcoded with
        | done h => exact ⟨256, taken, [], h, ⟨rfl, rfl, rfl⟩, (List.append_nil _).symm⟩
        | @literal u v symbol rest h hsymbol hrest =>
            refine ⟨symbol, u, v, h, ?_, rfl⟩
            rw [if_neg (by omega), if_pos hsymbol]
            exact ⟨rest, ⟨hrest, Nat.lt_of_succ_lt_succ hcount⟩, rfl⟩
        | @copy u v x y z symbol length code distance rest h hsymbol hlength hcode hdistance
            hrest =>
            refine ⟨symbol, u, _, h, ?_, rfl⟩
            rw [if_neg (by omega), if_neg (by omega)]
            exact ⟨length, x, _, hlength, ⟨code, y, _, hcode, ⟨distance, z, v, hdistance,
              ⟨rest, ⟨hrest, Nat.lt_of_succ_lt_succ hcount⟩, rfl⟩, rfl⟩, rfl⟩, rfl⟩

def Spelled (code : PrefixCode) : Prop :=
  ∀ w ∈ code.words, w.1 ≠ []

theorem spelled_of_lengths {lengths : List ℕ} {code : PrefixCode}
    (h : PrefixCode.ofLengths? lengths = some code) : Spelled code := by
  rintro ⟨bits, symbol⟩ hw rfl
  have hlength := ((PrefixCode.ofLengths?_mem_iff h).mp ⟨[], hw, rfl⟩).2.1
  exact absurd hlength (by decide)

theorem Coded.length_lt {literals distances : PrefixCode} {taken : List Bool} {tokens : List Token}
    (h : Coded literals distances taken tokens) (hliterals : Spelled literals) :
    tokens.length < taken.length := by
  induction h with
  | done h => exact List.length_pos_iff.mpr (hliterals _ h)
  | literal h hsymbol hrest ih =>
      have hword := List.length_pos_iff.mpr (hliterals _ h)
      rw [List.length_cons, List.length_append]
      dsimp only at hword
      omega
  | copy h hsymbol hlength hcode hdistance hrest ih =>
      have hword := List.length_pos_iff.mpr (hliterals _ h)
      simp only [List.length_cons, List.length_append]
      dsimp only at hword
      omega

/-!
# Codes
-/

theorem codeOf_means (lengths : List ℕ) : Means size (codeOf lengths)
    (Meaning.reading fun taken code =>
      taken = [] ∧ PrefixCode.ofLengths? lengths = some code) := by
  unfold codeOf
  cases hcode : PrefixCode.ofLengths? lengths with
  | none => exact means_failure.congr fun _ _ _ _ => ⟨False.elim, nofun⟩
  | some code =>
      refine (means_pure code).congr fun position taken tokens code' => ?_
      constructor
      · rintro ⟨rfl, rfl, rfl⟩
        exact ⟨rfl, rfl, rfl⟩
      · rintro ⟨rfl, rfl, hsome⟩
        exact ⟨rfl, rfl, (Option.some.inj hsome).symm⟩

def FixedCodes (literals distances : PrefixCode) : Prop :=
  PrefixCode.ofLengths? fixedLiteralLengths = some literals ∧
    PrefixCode.ofLengths? fixedDistanceLengths = some distances

theorem fixedCodes_means : Means size fixedCodes
    (Meaning.reading fun taken codes => taken = [] ∧ FixedCodes codes.1 codes.2) := by
  refine ((codeOf_means fixedLiteralLengths).bind_reading fun literals =>
    (codeOf_means fixedDistanceLengths).bind_pure).congr fun position taken tokens codes => ?_
  constructor
  · rintro ⟨literals, _, _, ⟨rfl, hliterals⟩, ⟨rfl, distances, ⟨rfl, hdistances⟩, rfl⟩, rfl⟩
    exact ⟨rfl, rfl, hliterals, hdistances⟩
  · rintro ⟨rfl, rfl, hliterals, hdistances⟩
    exact ⟨codes.1, [], [], ⟨rfl, hliterals⟩, ⟨rfl, codes.2, ⟨rfl, hdistances⟩, rfl⟩, rfl⟩

def Groups (count : ℕ) (groups : List (List Bool)) : Prop :=
  groups.length = count ∧ ∀ group ∈ groups, group.length = 3

theorem given_means (order : List ℕ) :
    Means size (order.mapM fun s => do return (s, ← bits 3))
      (Meaning.reading fun taken given => ∃ groups, Groups order.length groups ∧
        taken = groups.flatten ∧ given = order.zip (groups.map numberOfBits)) := by
  induction order with
  | nil =>
      refine (means_pure []).congr fun position taken tokens given => ?_
      constructor
      · rintro ⟨rfl, rfl, rfl⟩
        exact ⟨rfl, [], ⟨rfl, nofun⟩, rfl, rfl⟩
      · rintro ⟨rfl, groups, ⟨hlength, -⟩, rfl, rfl⟩
        obtain rfl := List.length_eq_zero_iff.mp hlength
        exact ⟨rfl, rfl, rfl⟩
  | cons s order ih =>
      rw [List.mapM_cons]
      refine ((bits_means 3).bind_pure.bind_reading fun first => ih.bind_pure).congr
        fun position taken tokens given => ?_
      constructor
      · rintro ⟨_, u, _, ⟨_, ⟨hu, rfl⟩, rfl⟩, ⟨rfl, _, ⟨groups, ⟨hlength, hgroups⟩, rfl, rfl⟩,
          rfl⟩, rfl⟩
        exact ⟨rfl, u :: groups, ⟨congrArg (· + 1) hlength, List.forall_mem_cons.mpr ⟨hu, hgroups⟩⟩,
          rfl, rfl⟩
      · rintro ⟨rfl, groups, ⟨hlength, hgroups⟩, rfl, rfl⟩
        obtain ⟨u, groups, rfl⟩ := List.exists_cons_of_length_eq_add_one hlength
        obtain ⟨hu, hgroups⟩ := List.forall_mem_cons.mp hgroups
        exact ⟨_, u, _, ⟨_, ⟨hu, rfl⟩, rfl⟩, ⟨rfl, _,
          ⟨groups, ⟨Nat.succ.inj hlength, hgroups⟩, rfl, rfl⟩, rfl⟩, rfl⟩

/-- Lengths of code words by a code for lengths, where a length may stand again for a number of
times; `done` holds those that are known, the last one first. -/
inductive Lengths (code : PrefixCode) (wanted : ℕ) : List ℕ → List Bool → List ℕ → Prop
  | done {done : List ℕ} (hall : done.length = wanted) : Lengths code wanted done [] done.reverse
  | length {done lengths : List ℕ} {u v : List Bool} {n : ℕ} (hmore : done.length < wanted)
      (h : (u, n) ∈ code.words) (hn : n < 16) (hrest : Lengths code wanted (n :: done) v lengths) :
      Lengths code wanted done (u ++ v) lengths
  | again {last : ℕ} {done lengths : List ℕ} {u times v : List Bool}
      (hmore : (last :: done).length < wanted) (h : (u, 16) ∈ code.words)
      (htimes : times.length = 2)
      (hrest : Lengths code wanted
        (List.replicate (3 + numberOfBits times) last ++ last :: done) v lengths) :
      Lengths code wanted (last :: done) (u ++ (times ++ v)) lengths
  | zeros {done lengths : List ℕ} {u times v : List Bool} (hmore : done.length < wanted)
      (h : (u, 17) ∈ code.words) (htimes : times.length = 3)
      (hrest : Lengths code wanted
        (List.replicate (3 + numberOfBits times) 0 ++ done) v lengths) :
      Lengths code wanted done (u ++ (times ++ v)) lengths
  | manyZeros {done lengths : List ℕ} {u times v : List Bool} {n : ℕ}
      (hmore : done.length < wanted) (h : (u, n) ∈ code.words) (hn : 17 < n)
      (htimes : times.length = 7)
      (hrest : Lengths code wanted
        (List.replicate (11 + numberOfBits times) 0 ++ done) v lengths) :
      Lengths code wanted done (u ++ (times ++ v)) lengths

theorem Lengths.length_le {code : PrefixCode} {wanted : ℕ} {done lengths : List ℕ}
    {taken : List Bool} (h : Lengths code wanted done taken lengths) : done.length ≤ wanted := by
  cases h with
  | done hall => exact Nat.le_of_eq hall
  | length hmore => exact Nat.le_of_lt hmore
  | again hmore => exact Nat.le_of_lt hmore
  | zeros hmore => exact Nat.le_of_lt hmore
  | manyZeros hmore => exact Nat.le_of_lt hmore

theorem again_means {code : PrefixCode} {wanted count : ℕ} (done : List ℕ)
    (hcount : wanted < done.length + (count + 1))
    (hnext : ∀ done' : List ℕ, wanted < done'.length + count →
      Means size (codeLengths code wanted done' count)
        (Meaning.reading (Lengths code wanted done'))) :
    Means size
      (do
        let n ← bits 2
        match done with
        | [] => failure
        | last :: _ => codeLengths code wanted (List.replicate (3 + n) last ++ done) count)
      (Meaning.reading fun taken lengths => ∃ times v last tail, done = last :: tail ∧
        times.length = 2 ∧ taken = times ++ v ∧
        Lengths code wanted (List.replicate (3 + numberOfBits times) last ++ done) v lengths) := by
  -- nothing can stand again before there is a length
  cases done with
  | nil =>
      refine ((bits_means 2).bind_reading fun _ => means_failure).congr
        fun position taken tokens lengths => ⟨?_, ?_⟩
      · rintro ⟨_, _, _, _, h, _⟩
        exact h.elim
      · rintro ⟨_, _, _, _, _, h, _⟩
        cases h
  | cons last done =>
      refine ((bits_means 2).bind_reading fun n =>
        hnext (List.replicate (3 + n) last ++ last :: done)
          (by rw [List.length_append, List.length_replicate]; omega)).congr
            fun position taken tokens lengths => ⟨?_, ?_⟩
      · rintro ⟨_, times, v, ⟨htimes, rfl⟩, ⟨rfl, hrest⟩, rfl⟩
        exact ⟨rfl, times, v, last, done, rfl, htimes, rfl, hrest⟩
      · rintro ⟨rfl, times, v, _, _, heq, htimes, rfl, hrest⟩
        cases heq
        exact ⟨_, times, v, ⟨htimes, rfl⟩, ⟨rfl, hrest⟩, rfl⟩

theorem codeLengths_means (code : PrefixCode) (wanted : ℕ) (done : List ℕ) (count : ℕ)
    (hcount : wanted < done.length + count) :
    Means size (codeLengths code wanted done count)
      (Meaning.reading (Lengths code wanted done)) := by
  -- every word gives a length at least, so the count outlasts the lengths that are wanted
  induction count generalizing done with
  | zero =>
      refine means_failure.congr fun position taken tokens lengths => ⟨False.elim, ?_⟩
      rintro ⟨rfl, h⟩
      exact absurd h.length_le (by omega)
  | succ count ih =>
      have hzeros (least n : ℕ) (hleast : 0 < least) :
          Means size (codeLengths code wanted (List.replicate (least + n) 0 ++ done) count)
            (Meaning.reading (Lengths code wanted (List.replicate (least + n) 0 ++ done))) :=
        ih _ (by rw [List.length_append, List.length_replicate]; omega)
      rw [codeLengths]
      simp only [bind_map_left]
      refine ((means_pure done.reverse).ite ((symbol_means code).bind_reading fun s =>
        (ih (s :: done) (by rw [List.length_cons]; omega)).ite ((again_means done hcount ih).ite
          (((bits_means 3).bind_reading fun n => hzeros 3 n (by decide)).ite
            ((bits_means 7).bind_reading fun n => hzeros 11 n (by decide)))))).unless.congr
        fun position taken tokens lengths => ⟨?_, ?_⟩
      · rintro ⟨hle, h⟩
        split_ifs at h with hall
        · obtain ⟨rfl, rfl, rfl⟩ := h
          exact ⟨rfl, .done hall⟩
        · have hmore : done.length < wanted := by omega
          obtain ⟨s, u, v, hword, h, rfl⟩ := h
          split_ifs at h with hlength hsixteen hseventeen
          · exact ⟨h.1, .length hmore hword hlength h.2⟩
          · obtain ⟨rfl, times, v, last, done, rfl, htimes, rfl, hrest⟩ := h
            exact ⟨rfl, .again hmore (hsixteen ▸ hword) htimes hrest⟩
          · obtain ⟨_, times, v, ⟨htimes, rfl⟩, ⟨rfl, hrest⟩, rfl⟩ := h
            exact ⟨rfl, .zeros hmore (hseventeen ▸ hword) htimes hrest⟩
          · obtain ⟨_, times, v, ⟨htimes, rfl⟩, ⟨rfl, hrest⟩, rfl⟩ := h
            exact ⟨rfl, .manyZeros hmore hword (by omega) htimes hrest⟩
      · rintro ⟨rfl, h⟩
        refine ⟨Nat.not_lt.mpr h.length_le, ?_⟩
        cases h with
        | done hall =>
            rw [if_pos hall]
            exact ⟨rfl, rfl, rfl⟩
        | @length _ _ u v n hmore hword hn hrest =>
            rw [if_neg (Nat.ne_of_lt hmore)]
            refine ⟨n, u, v, hword, ?_, rfl⟩
            rw [if_pos hn]
            exact ⟨rfl, hrest⟩
        | @again last done _ u times v hmore hword htimes hrest =>
            rw [if_neg (Nat.ne_of_lt hmore)]
            refine ⟨16, u, times ++ v, hword, ?_, rfl⟩
            rw [if_neg (by decide), if_pos rfl]
            exact ⟨rfl, times, v, last, done, rfl, htimes, rfl, hrest⟩
        | @zeros _ _ u times v hmore hword htimes hrest =>
            rw [if_neg (Nat.ne_of_lt hmore)]
            refine ⟨17, u, times ++ v, hword, ?_, rfl⟩
            rw [if_neg (by decide), if_neg (by decide), if_pos rfl]
            exact ⟨_, times, v, ⟨htimes, rfl⟩, ⟨rfl, hrest⟩, rfl⟩
        | @manyZeros _ _ u times v n hmore hword hn htimes hrest =>
            rw [if_neg (Nat.ne_of_lt hmore)]
            refine ⟨n, u, times ++ v, hword, ?_, rfl⟩
            rw [if_neg (by omega), if_neg (by omega), if_neg (by omega)]
            exact ⟨_, times, v, ⟨htimes, rfl⟩, ⟨rfl, hrest⟩, rfl⟩

/-- Lengths given in an order of their own; those that are not given are zero. -/
def ordered (order : List ℕ) (groups : List (List Bool)) : List ℕ :=
  (List.range 19).map fun s => ((order.zip (groups.map numberOfBits)).lookup s).getD 0

theorem orderedLengths_means (count : ℕ) : Means size (orderedLengths count)
    (Meaning.reading fun taken lengths => ∃ groups,
      Groups (lengthOrder.take count).length groups ∧ taken = groups.flatten ∧
        lengths = ordered (lengthOrder.take count) groups) := by
  refine (given_means (lengthOrder.take count)).bind_pure.congr
    fun position taken tokens lengths => and_congr_right fun _ => ?_
  constructor
  · rintro ⟨_, ⟨groups, hgroups, rfl, rfl⟩, rfl⟩
    exact ⟨groups, hgroups, rfl, rfl⟩
  · rintro ⟨groups, hgroups, rfl, rfl⟩
    exact ⟨_, ⟨groups, hgroups, rfl, rfl⟩, rfl⟩

inductive OwnCodes (literals distances : PrefixCode) : List Bool → Prop
  | codes {a b c v : List Bool} {groups : List (List Bool)} {code : PrefixCode} {lengths : List ℕ}
      (ha : a.length = 5) (hb : b.length = 5) (hc : c.length = 4)
      (hliteralCount : 257 + numberOfBits a ≤ maxLiterals)
      (hdistanceCount : 1 + numberOfBits b ≤ maxDistances)
      (hgroups : Groups (lengthOrder.take (4 + numberOfBits c)).length groups)
      (hcode : PrefixCode.ofLengths? (ordered (lengthOrder.take (4 + numberOfBits c)) groups) =
        some code)
      (hlengths : Lengths code (257 + numberOfBits a + (1 + numberOfBits b)) [] v lengths)
      (hliterals : PrefixCode.ofLengths? (lengths.take (257 + numberOfBits a)) = some literals)
      (hdistances : PrefixCode.ofLengths? (lengths.drop (257 + numberOfBits a)) = some distances) :
      OwnCodes literals distances (a ++ (b ++ (c ++ (groups.flatten ++ v))))

theorem ownCodes_means : Means size ownCodes
    (Meaning.reading fun taken codes => OwnCodes codes.1 codes.2 taken) := by
  refine ((bits_means 5).bind_reading fun a => (bits_means 5).bind_reading fun b =>
    (bits_means 4).bind_reading fun c => Means.unless
      ((orderedLengths_means (4 + c)).bind_reading fun given => (codeOf_means given).bind_reading
        fun code => (codeLengths_means code (257 + a + (1 + b)) [] (257 + a + (1 + b) + 1)
          (Nat.lt_of_lt_of_eq (Nat.lt_succ_self _) (Nat.zero_add _).symm)).bind_reading
            fun lengths => (codeOf_means (lengths.take (257 + a))).bind_reading fun literals =>
              (codeOf_means (lengths.drop (257 + a))).bind_pure)).congr
    fun position taken tokens codes => ⟨?_, ?_⟩
  · rintro ⟨_, a, _, ⟨ha, rfl⟩, ⟨_, b, _, ⟨hb, rfl⟩, ⟨_, c, _, ⟨hc, rfl⟩, ⟨hcounts, _, _, _,
      ⟨groups, hgroups, rfl, rfl⟩, ⟨code, _, _, ⟨rfl, hcode⟩, ⟨lengths, v, _, hlengths,
        ⟨literals, _, _, ⟨rfl, hliterals⟩, ⟨rfl, distances, ⟨rfl, hdistances⟩, rfl⟩, rfl⟩, rfl⟩,
          rfl⟩, rfl⟩, rfl⟩, rfl⟩, rfl⟩
    rw [not_or, Nat.not_lt, Nat.not_lt] at hcounts
    simp only [List.append_nil, List.nil_append]
    exact ⟨rfl, .codes ha hb hc hcounts.1 hcounts.2 hgroups hcode hlengths hliterals hdistances⟩
  · obtain ⟨literals, distances⟩ := codes
    rintro ⟨rfl, h⟩
    cases h with
    | @codes a b c v groups code lengths ha hb hc hliteralCount hdistanceCount hgroups hcode
        hlengths hliterals hdistances =>
        have hcounts : ¬(maxLiterals < 257 + numberOfBits a ∨
            maxDistances < 1 + numberOfBits b) := by
          omega
        exact ⟨_, a, _, ⟨ha, rfl⟩, ⟨_, b, _, ⟨hb, rfl⟩, ⟨_, c, _, ⟨hc, rfl⟩, ⟨hcounts, _, _, _,
          ⟨groups, hgroups, rfl, rfl⟩, ⟨code, [], _, ⟨rfl, hcode⟩, ⟨lengths, v, [], hlengths,
            ⟨literals, [], [], ⟨rfl, hliterals⟩, ⟨rfl, distances, ⟨rfl, hdistances⟩, rfl⟩, rfl⟩,
              (List.append_nil v).symm⟩, rfl⟩, rfl⟩, rfl⟩, rfl⟩, rfl⟩

/-!
# Blocks
-/

/-- A block without the bit that tells whether it is the last one. -/
inductive Block (position : ℕ) : List Bool → List Token → Prop
  | stored {taken : List Bool} {tokens : List Token} (h : Stored (position + 2) taken tokens) :
      Block position (false :: false :: taken) tokens
  | fixed {literals distances : PrefixCode} {taken : List Bool} {tokens : List Token}
      (hcodes : FixedCodes literals distances) (h : Coded literals distances taken tokens) :
      Block position (true :: false :: taken) tokens
  | own {literals distances : PrefixCode} {u v : List Bool} {tokens : List Token}
      (hcodes : OwnCodes literals distances u) (h : Coded literals distances v tokens) :
      Block position (false :: true :: (u ++ v)) tokens

def BlockBody (size position kind : ℕ) (taken : List Bool) (tokens : List Token) : Prop :=
  (kind = 0 ∧ Stored position taken tokens) ∨
    (kind = 1 ∧ ∃ literals distances, FixedCodes literals distances ∧
      Coded literals distances taken tokens ∧ tokens.length < 8 * size + 1) ∨
    (kind = 2 ∧ ∃ literals distances u v, OwnCodes literals distances u ∧
      (Coded literals distances v tokens ∧ tokens.length < 8 * size + 1) ∧ taken = u ++ v)

theorem OwnCodes.spelled {literals distances : PrefixCode} {taken : List Bool}
    (h : OwnCodes literals distances taken) : Spelled literals := by
  cases h with
  | codes _ _ _ _ _ _ _ _ hliterals => exact spelled_of_lengths hliterals

theorem blockBody_iff {position : ℕ} {low high : Bool} {taken : List Bool} {tokens : List Token}
    (h : taken.length ≤ 8 * size) :
    BlockBody size (position + 2) (numberOfBits [low, high]) taken tokens ↔
      Block position (low :: high :: taken) tokens := by
  constructor
  · rintro (⟨hkind, hstored⟩ | ⟨hkind, _, _, hcodes, hcoded, -⟩ |
      ⟨hkind, _, _, u, v, hcodes, ⟨hcoded, -⟩, rfl⟩)
    · cases low <;> cases high <;> cases hkind
      exact .stored hstored
    · cases low <;> cases high <;> cases hkind
      exact .fixed hcodes hcoded
    · cases low <;> cases high <;> cases hkind
      exact .own hcodes hcoded
  · intro hblock
    cases hblock with
    | stored hstored => exact .inl ⟨rfl, hstored⟩
    | fixed hcodes hcoded =>
        have hlength := hcoded.length_lt (spelled_of_lengths hcodes.1)
        exact .inr (.inl ⟨rfl, _, _, hcodes, hcoded, by omega⟩)
    | own hcodes hcoded =>
        have hlength := hcoded.length_lt hcodes.spelled
        rw [List.length_append] at h
        exact .inr (.inr ⟨rfl, _, _, _, _, hcodes, ⟨hcoded, by omega⟩, rfl⟩)

theorem blockBody_means (kind : ℕ) (last : Bool) :
    Means size
      (match kind with
        | 0 => do storedBlock; return last
        | 1 => do
            let (literals, distances) ← fixedCodes
            codedBlock literals distances (8 * size + 1)
            return last
        | 2 => do
            let (literals, distances) ← ownCodes
            codedBlock literals distances (8 * size + 1)
            return last
        | _ => do
            let _ : Unit ← failure
            return last)
      fun position taken tokens b => BlockBody size position kind taken tokens ∧ b = last := by
  match kind with
  | 0 =>
      refine (storedBlock_means.bind_const last).congr fun position taken tokens b => ?_
      simp [BlockBody]
  | 1 =>
      refine (fixedCodes_means.bind_reading fun codes =>
        (codedBlock_means codes.1 codes.2 (8 * size + 1)).bind_const last).congr
          fun position taken tokens b => ⟨?_, ?_⟩
      · rintro ⟨codes, _, _, ⟨rfl, hcodes⟩, ⟨hcoded, rfl⟩, rfl⟩
        exact ⟨.inr (.inl ⟨rfl, _, _, hcodes, hcoded⟩), rfl⟩
      · rintro ⟨⟨hkind, -⟩ | ⟨-, literals, distances, hcodes, hcoded⟩ | ⟨hkind, -⟩, rfl⟩
        · cases hkind
        · exact ⟨(literals, distances), [], taken, ⟨rfl, hcodes⟩, ⟨hcoded, rfl⟩, rfl⟩
        · cases hkind
  | 2 =>
      refine (ownCodes_means.bind_reading fun codes =>
        (codedBlock_means codes.1 codes.2 (8 * size + 1)).bind_const last).congr
          fun position taken tokens b => ⟨?_, ?_⟩
      · rintro ⟨codes, _, _, hcodes, ⟨hcoded, rfl⟩, rfl⟩
        exact ⟨.inr (.inr ⟨rfl, _, _, _, _, hcodes, hcoded, rfl⟩), rfl⟩
      · rintro ⟨⟨hkind, -⟩ | ⟨hkind, -⟩ |
          ⟨-, literals, distances, u, v, hcodes, hcoded, rfl⟩, rfl⟩
        · cases hkind
        · cases hkind
        · exact ⟨(literals, distances), u, v, hcodes, ⟨hcoded, rfl⟩, rfl⟩
  | kind + 3 =>
      refine (means_failure.bind_const last).congr fun position taken tokens b => ?_
      simp [BlockBody]

theorem block_means : Means size block fun position taken tokens last =>
    ∃ rest, taken = last :: rest ∧ Block (position + 1) rest tokens := by
  refine (bit_means.bind_reading fun last => Means.get_bind
    ((bits_means 2).bind_reading fun kind => blockBody_means kind (decide (last = 1)))
      fun s hs => ?_).congr_within fun position taken tokens last hle => ?_
  · subst hs
    rfl
  · constructor
    · rintro ⟨_, _, _, ⟨b, rfl, rfl⟩, ⟨_, u, v, ⟨hlength, rfl⟩, ⟨hbody, rfl⟩, rfl⟩, rfl⟩
      obtain ⟨low, high, rfl⟩ := List.length_eq_two.mp hlength
      rw [List.length_append, List.length_append] at hle
      refine ⟨low :: high :: v, by cases b <;> rfl, (blockBody_iff (by omega)).mp hbody⟩
    · rintro ⟨rest, rfl, hblock⟩
      obtain ⟨low, high, v, rfl⟩ : ∃ low high v, rest = low :: high :: v := by
        cases hblock <;> exact ⟨_, _, _, rfl⟩
      simp only [List.length_cons] at hle
      exact ⟨_, [last], low :: high :: v, ⟨last, rfl, rfl⟩, ⟨_, [low, high], v, ⟨rfl, rfl⟩,
        ⟨(blockBody_iff (by omega)).mpr hblock, by cases last <;> rfl⟩, rfl⟩, rfl⟩

inductive Blocks : ℕ → ℕ → List Bool → List Token → Prop
  | last {position : ℕ} {taken : List Bool} {tokens : List Token}
      (h : Block (position + 1) taken tokens) : Blocks 1 position (true :: taken) tokens
  | more {n position : ℕ} {u v : List Bool} {front back : List Token}
      (h : Block (position + 1) u front)
      (hrest : Blocks n (position + 1 + u.length) v back) :
      Blocks (n + 1) position (false :: (u ++ v)) (front ++ back)

theorem Blocks.le_length {n position : ℕ} {taken : List Bool} {tokens : List Token}
    (h : Blocks n position taken tokens) : n ≤ taken.length := by
  induction h with
  | last h => exact Nat.succ_pos _
  | more h hrest ih =>
      rw [List.length_cons, List.length_append]
      omega

theorem blocks_means (count : ℕ) : Means size (blocks count) fun position taken tokens _ =>
    ∃ n, n ≤ count ∧ Blocks n position taken tokens := by
  induction count with
  | zero =>
      refine means_failure.congr fun position taken tokens a => ⟨False.elim, ?_⟩
      rintro ⟨n, hn, h⟩
      cases h <;> exact absurd hn (Nat.not_succ_le_zero _)
  | succ count ih =>
      refine (block_means.bind fun last => (means_pure ()).ite ih).congr
        fun position taken tokens a => ⟨?_, ?_⟩
      · rintro ⟨last, _, v, front, back, ⟨u, rfl, hblock⟩, h, rfl, rfl⟩
        split_ifs at h with hlast
        · obtain ⟨rfl, rfl, -⟩ := h
          rw [List.append_nil, List.append_nil, hlast]
          exact ⟨1, Nat.succ_le_succ (Nat.zero_le _), .last hblock⟩
        · obtain ⟨n, hn, hrest⟩ := h
          rw [Bool.eq_false_iff.mpr hlast]
          refine ⟨n + 1, Nat.succ_le_succ hn, .more hblock ?_⟩
          rwa [List.length_cons, Nat.add_comm u.length, ← Nat.add_assoc] at hrest
      · rintro ⟨n, hn, h⟩
        cases h with
        | last hblock =>
            exact ⟨true, _, [], _, [], ⟨_, rfl, hblock⟩, ⟨rfl, rfl, rfl⟩, (List.append_nil _).symm,
              (List.append_nil _).symm⟩
        | @more n _ u v front back hblock hrest =>
            refine ⟨false, false :: u, v, front, back, ⟨_, rfl, hblock⟩, ?_, rfl, rfl⟩
            dsimp only
            rw [if_neg (by decide), List.length_cons, Nat.add_comm u.length, ← Nat.add_assoc]
            exact ⟨n, Nat.le_of_succ_le_succ hn, hrest⟩

/-!
# Data
-/

def text (tokens : List Token) : List UInt8 :=
  (tokens.foldl Token.replay #[]).toList

/-- Data is inflated to what the tokens of its blocks write. -/
theorem inflate_eq_ok_iff {data : Array UInt8} {out : List UInt8} :
    inflate data = .ok out ↔ ∃ n taken tokens, Blocks n 0 taken tokens ∧
      taken <+: bitsOf data.toList ∧ out = text tokens := by
  have hstart : Sound ⟨data, 0, #[]⟩ data.size := ⟨rfl, Nat.zero_le _⟩
  have hmeans := blocks_means (8 * data.size + 1) ⟨data, 0, #[]⟩ hstart ()
  have hahead : ahead ⟨data, 0, #[]⟩ = bitsOf data.toList := rfl
  rw [hahead] at hmeans
  constructor
  · intro h
    unfold inflate at h
    split at h
    next s hrun =>
      cases h
      obtain ⟨taken, tokens, ⟨n, -, hblocks⟩, htaken, rfl⟩ := (hmeans s).mp hrun
      exact ⟨n, taken, tokens, hblocks, htaken, rfl⟩
    next => cases h
  · rintro ⟨n, taken, tokens, hblocks, htaken, rfl⟩
    have hsize : data.toList.length = data.size := rfl
    have hle := htaken.length_le
    have hcount := hblocks.le_length
    rw [bitsOf_length, hsize] at hle
    have hrun := (hmeans _).mpr ⟨taken, tokens, ⟨n, by omega, hblocks⟩, htaken, rfl⟩
    rw [inflate, hrun]
    rfl

/-!
# Stored data
-/

theorem numberOfBits_append (u v : List Bool) :
    numberOfBits (u ++ v) = numberOfBits u + 2 ^ u.length * numberOfBits v := by
  induction u with
  | nil =>
      rw [List.nil_append, numberOfBits, List.length_nil, Nat.pow_zero, Nat.one_mul, Nat.zero_add]
  | cons b u ih =>
      rw [List.cons_append, numberOfBits, numberOfBits, ih, List.length_cons, Nat.pow_succ,
        Nat.mul_add, Nat.mul_comm (2 ^ u.length) 2, Nat.mul_assoc, Nat.add_assoc]

def pairOf (n : ℕ) : List UInt8 :=
  [(n % 256).toUInt8, (n / 256).toUInt8]

theorem numberOfBits_pairOf {n : ℕ} (h : n < 2 ^ 16) : numberOfBits (bitsOf (pairOf n)) = n := by
  have hlow : (n % 256).toUInt8.toNat = n % 256 := Nat.mod_eq_of_lt (Nat.mod_lt n (by decide))
  have hhigh : (n / 256).toUInt8.toNat = n / 256 := Nat.mod_eq_of_lt (by omega)
  have hbits : bitsOf (pairOf n) =
      bitsOfByte (n % 256).toUInt8 ++ bitsOfByte (n / 256).toUInt8 := by
    rw [pairOf, bitsOf_cons, bitsOf_cons]
    exact congrArg _ (List.append_nil _)
  have hlength : (bitsOfByte (n % 256).toUInt8).length = 8 := rfl
  rw [hbits, numberOfBits_append, hlength, numberOfBits_bitsOfByte, numberOfBits_bitsOfByte, hlow,
    hhigh]
  omega

def storedChunk (last : Bool) (chunk : List UInt8) : List UInt8 :=
  (if last then 1 else 0) :: (pairOf chunk.length ++ (pairOf (0xFFFF - chunk.length) ++ chunk))

def store : List (List UInt8) → List UInt8
  | [] => storedChunk true []
  | chunk :: rest => storedChunk false chunk ++ store rest

theorem bitsOf_append (front back : List UInt8) :
    bitsOf (front ++ back) = bitsOf front ++ bitsOf back :=
  List.flatMap_append

theorem storedChunk_block (last : Bool) {chunk : List UInt8} (h : chunk.length < 2 ^ 16)
    {position : ℕ} (hposition : position % 8 = 0) :
    ∃ taken, bitsOf (storedChunk last chunk) = last :: taken ∧
      Block (position + 1) taken (chunk.map Token.literal) := by
  have hfirst : bitsOfByte (if last then 1 else 0) =
      last :: false :: false :: List.replicate 5 false := by
    cases last <;> decide
  refine ⟨_, ?_, .stored (@Stored.bytes _ (List.replicate 5 false) (bitsOf (pairOf chunk.length))
    (bitsOf (pairOf (0xFFFF - chunk.length))) chunk ?_ ?_ ?_ ?_ ?_)⟩
  · rw [storedChunk, bitsOf_cons, bitsOf_append, bitsOf_append, hfirst]
    rfl
  · exact ⟨by decide, by rw [List.length_replicate]; omega⟩
  · rw [bitsOf_length]
    rfl
  · rw [bitsOf_length]
    rfl
  · rw [numberOfBits_pairOf h, numberOfBits_pairOf (by omega)]
    omega
  · exact (numberOfBits_pairOf h).symm

theorem store_blocks {chunks : List (List UInt8)} (h : ∀ chunk ∈ chunks, chunk.length < 2 ^ 16)
    {position : ℕ} (hposition : position % 8 = 0) :
    Blocks (chunks.length + 1) position (bitsOf (store chunks))
      (chunks.flatten.map Token.literal) := by
  induction chunks generalizing position with
  | nil =>
      obtain ⟨taken, hbits, hblock⟩ := @storedChunk_block true [] (by decide) _ hposition
      rw [store, hbits]
      exact .last hblock
  | cons chunk rest ih =>
      obtain ⟨hchunk, hrest⟩ := List.forall_mem_cons.mp h
      obtain ⟨taken, hbits, hblock⟩ := storedChunk_block false hchunk hposition
      have hlength := congrArg List.length hbits
      rw [bitsOf_length, List.length_cons] at hlength
      rw [store, bitsOf_append, hbits, List.flatten_cons, List.map_append, List.length_cons]
      exact .more hblock (ih hrest (by omega))

theorem text_literals (data : List UInt8) : text (data.map Token.literal) = data := by
  have hpush (output : Array UInt8) :
      ((data.map Token.literal).foldl Token.replay output).toList = output.toList ++ data := by
    induction data generalizing output with
    | nil => exact (List.append_nil _).symm
    | cons byte rest ih =>
        rw [List.map_cons, List.foldl_cons, ih, Token.replay, Array.toList_push, List.append_assoc]
        rfl
  exact hpush #[]

/-- Chunks that are stored are inflated to what they hold. -/
theorem inflate_store {chunks : List (List UInt8)} (h : ∀ chunk ∈ chunks, chunk.length < 2 ^ 16) :
    inflate (store chunks).toArray = .ok chunks.flatten :=
  inflate_eq_ok_iff.mpr ⟨_, _, _, store_blocks h rfl, List.prefix_rfl, (text_literals _).symm⟩

end Inflater
end Archive
end Bytecode
