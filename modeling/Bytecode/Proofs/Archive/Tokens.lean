import Bytecode.Archive.Inflate
import Bytecode.Proofs.Archive.PrefixCodes

/-!
# What compressed bits mean

A step of inflation takes bits from the input and appends to the output.  Each step is described by
the bits it takes and the tokens that it writes, and steps one after the other by these strung
together.
-/

namespace Bytecode
namespace Archive
namespace Inflater

/-!
# Bits ahead
-/

def bitsOfByte (byte : UInt8) : List Bool :=
  (List.range 8).map byte.toNat.testBit

def bitsOf (bytes : List UInt8) : List Bool :=
  bytes.flatMap bitsOfByte

def numberOfBits : List Bool → ℕ
  | [] => 0
  | bit :: rest => bit.toNat + 2 * numberOfBits rest

theorem bitsOf_cons (byte : UInt8) (rest : List UInt8) :
    bitsOf (byte :: rest) = bitsOfByte byte ++ bitsOf rest :=
  List.flatMap_cons

theorem bitsOf_length (bytes : List UInt8) : (bitsOf bytes).length = 8 * bytes.length := by
  induction bytes with
  | nil => rfl
  | cons byte rest ih =>
      rw [bitsOf_cons, List.length_append, ih, List.length_cons, Nat.mul_succ, Nat.add_comm]
      rfl

theorem getElem?_bitsOf (bytes : List UInt8) (i : ℕ) :
    (bitsOf bytes)[i]? = bytes[i / 8]?.map fun byte => byte.toNat.testBit (i % 8) := by
  induction bytes generalizing i with
  | nil => rfl
  | cons byte rest ih =>
      have hlength : (bitsOfByte byte).length = 8 := rfl
      rw [bitsOf_cons]
      by_cases hi : i < 8
      · rw [List.getElem?_append_left (by omega), Nat.div_eq_of_lt hi, Nat.mod_eq_of_lt hi,
          bitsOfByte, List.getElem?_map, List.getElem?_range hi]
        rfl
      · obtain ⟨j, rfl⟩ := Nat.exists_eq_add_of_le (Nat.le_of_not_lt hi)
        rw [List.getElem?_append_right (by omega), hlength, Nat.add_sub_cancel_left,
          Nat.add_div_left _ (by decide), Nat.add_mod_left]
        exact ih j

def ahead (s : Inflater) : List Bool :=
  (bitsOf s.input.toList).drop s.position

def skip (s : Inflater) (count : ℕ) : Inflater :=
  { s with position := s.position + count }

theorem ahead_skip (s : Inflater) (count : ℕ) : (s.skip count).ahead = s.ahead.drop count := by
  rw [ahead, ahead, List.drop_drop]
  rfl

/-- The input has `size` bytes, and nothing behind its end was read. -/
structure Sound (s : Inflater) (size : ℕ) : Prop where
  size_eq : s.input.size = size
  position_le : s.position ≤ 8 * size

theorem ahead_length (s : Inflater) : s.ahead.length = 8 * s.input.size - s.position := by
  rw [ahead, List.length_drop, bitsOf_length, Array.length_toList]

/-!
# Tokens
-/

inductive Token where
  | literal (byte : UInt8)
  /-- Bytes that are at a distance already. -/
  | copy (distance length : ℕ)

/-- The output with earlier bytes repeated; before the first byte there are zeros. -/
def repeated (distance : ℕ) : ℕ → Array UInt8 → Array UInt8
  | 0, output => output
  | count + 1, output =>
      repeated distance count (output.push
        (if distance ≤ output.size then output.getD (output.size - distance) 0 else 0))

section Repeated

variable {distance : ℕ} {output : Array UInt8} {i : ℕ}

theorem repeated_getElem?_of_lt (count : ℕ) (h : i < output.size) :
    (repeated distance count output)[i]? = output[i]? := by
  induction count generalizing output with
  | zero => rfl
  | succ count ih =>
      rw [repeated, ih (by rw [Array.size_push]; omega), Array.getElem?_push_lt h,
        Array.getElem?_eq_getElem h]

/-- Each byte that is repeated is the one at the distance before it, which may itself be
repeated. -/
theorem repeated_getElem?_of_ge {count : ℕ} (hdistance : 0 < distance) (h : output.size ≤ i)
    (hi : i < output.size + count) :
    (repeated distance count output)[i]? =
      if distance ≤ i then (repeated distance count output)[i - distance]? else some 0 := by
  induction count generalizing output with
  | zero => omega
  | succ count ih =>
      rw [repeated]
      by_cases hfirst : i = output.size
      · subst hfirst
        rw [repeated_getElem?_of_lt count (by rw [Array.size_push]; omega),
          Array.getElem?_push_size]
        split_ifs with hle
        · have hless : output.size - distance < output.size := by omega
          rw [repeated_getElem?_of_lt count (by rw [Array.size_push]; omega),
            Array.getElem?_push_lt hless, Array.getD_eq_getD_getElem?,
            Array.getElem?_eq_getElem hless]
          rfl
        · rfl
      · exact ih (by rw [Array.size_push]; omega) (by rw [Array.size_push]; omega)

end Repeated

namespace Token

def replay (output : Array UInt8) : Token → Array UInt8
  | literal byte => output.push byte
  | copy distance length => repeated distance length output

end Token

def write (s : Inflater) (tokens : List Token) : Inflater :=
  { s with output := tokens.foldl Token.replay s.output }

def after (s : Inflater) (taken : List Bool) (tokens : List Token) : Inflater :=
  (s.skip taken.length).write tokens

theorem after_append (s : Inflater) (u v : List Bool) (front back : List Token) :
    s.after (u ++ v) (front ++ back) = (s.after u front).after v back := by
  simp only [after, skip, write, List.length_append, List.foldl_append, Nat.add_assoc]

theorem ahead_after (s : Inflater) (taken : List Bool) (tokens : List Token) :
    (s.after taken tokens).ahead = s.ahead.drop taken.length :=
  ahead_skip s taken.length

theorem prefix_append_iff {s : Inflater} {u v : List Bool} (tokens : List Token) :
    u ++ v <+: s.ahead ↔ u <+: s.ahead ∧ v <+: (s.after u tokens).ahead := by
  rw [ahead_after]
  constructor
  · rintro ⟨rest, h⟩
    rw [← h, List.append_assoc, List.drop_left]
    exact ⟨List.prefix_append _ _, List.prefix_append _ _⟩
  · rintro ⟨⟨rest, h⟩, hv⟩
    rw [← h, List.drop_left] at hv
    rw [← h]
    exact (List.prefix_append_right_inj u).mpr hv

theorem Sound.after {s : Inflater} {size : ℕ} {taken : List Bool} (hs : s.Sound size)
    (h : taken <+: s.ahead) (tokens : List Token) : (s.after taken tokens).Sound size := by
  have hle := h.length_le
  have hposition := hs.position_le
  rw [ahead_length, hs.size_eq] at hle
  refine ⟨hs.size_eq, ?_⟩
  show s.position + taken.length ≤ 8 * size
  omega

/-!
# Meanings of steps
-/

variable {α β : Type} {size : ℕ}

/-- What a step does from a position on: the bits it takes, the tokens it writes, its result. -/
abbrev Meaning (α : Type) := ℕ → List Bool → List Token → α → Prop

/-- A step takes bits of an input of `size` bytes and writes tokens if its meaning says so, and does
nothing else. -/
def Means (size : ℕ) (x : InflateM α) (R : Meaning α) : Prop :=
  ∀ s, s.Sound size → ∀ a s', x.run s = some (a, s') ↔
    ∃ taken tokens, R s.position taken tokens a ∧ taken <+: s.ahead ∧ s' = s.after taken tokens

namespace Meaning

def pure (a : α) : Meaning α :=
  fun _ taken tokens b => taken = [] ∧ tokens = [] ∧ b = a

def andThen (R : Meaning α) (Q : α → Meaning β) : Meaning β :=
  fun position taken tokens b => ∃ a u v front back,
    R position u front a ∧ Q a (position + u.length) v back b ∧ taken = u ++ v ∧
      tokens = front ++ back

end Meaning

theorem Means.congr_within {x : InflateM α} {R Q : Meaning α} (h : Means size x R)
    (hiff : ∀ position taken tokens a, taken.length ≤ 8 * size →
      (R position taken tokens a ↔ Q position taken tokens a)) : Means size x Q := by
  intro s hs a s'
  rw [h s hs]
  refine exists_congr fun taken => exists_congr fun tokens => and_congr_left fun hrest => ?_
  have hle := hrest.1.length_le
  rw [ahead_length, hs.size_eq] at hle
  exact hiff _ _ _ _ (by omega)

theorem Means.congr {x : InflateM α} {R Q : Meaning α} (h : Means size x R)
    (hiff : ∀ position taken tokens a, R position taken tokens a ↔ Q position taken tokens a) :
    Means size x Q :=
  h.congr_within fun position taken tokens a _ => hiff position taken tokens a

theorem means_pure (a : α) : Means size (pure a) (Meaning.pure a) := by
  intro s hs b s'
  rw [StateT.run_pure]
  constructor
  · rintro h
    cases h
    exact ⟨[], [], ⟨rfl, rfl, rfl⟩, List.nil_prefix, rfl⟩
  · rintro ⟨_, _, ⟨rfl, rfl, rfl⟩, -, rfl⟩
    rfl

theorem means_failure : Means size (failure : InflateM α) fun _ _ _ _ => False := by
  intro s hs a s'
  constructor
  · rintro ⟨⟩
  · rintro ⟨_, _, h, -⟩
    exact h.elim

theorem Means.bind {x : InflateM α} {f : α → InflateM β} {R : Meaning α} {Q : α → Meaning β}
    (hx : Means size x R) (hf : ∀ a, Means size (f a) (Q a)) :
    Means size (x >>= f) (R.andThen Q) := by
  intro s hs b s'
  rw [StateT.run_bind, Option.bind_eq_bind, Option.bind_eq_some_iff]
  constructor
  · rintro ⟨⟨a, s₁⟩, hrun, hrest⟩
    obtain ⟨u, front, hR, hu, rfl⟩ := (hx s hs a s₁).mp hrun
    obtain ⟨v, back, hQ, hv, rfl⟩ := (hf a _ (hs.after hu front) b s').mp hrest
    exact ⟨u ++ v, front ++ back, ⟨a, u, v, front, back, hR, hQ, rfl, rfl⟩,
      (prefix_append_iff front).mpr ⟨hu, hv⟩, (after_append ..).symm⟩
  · rintro ⟨_, _, ⟨a, u, v, front, back, hR, hQ, rfl, rfl⟩, htaken, rfl⟩
    obtain ⟨hu, hv⟩ := (prefix_append_iff front).mp htaken
    exact ⟨(a, s.after u front), (hx s hs _ _).mpr ⟨u, front, hR, hu, rfl⟩,
      (hf a _ (hs.after hu front) _ _).mpr ⟨v, back, hQ, hv, after_append ..⟩⟩

theorem Means.ite {c : Prop} [Decidable c] {x y : InflateM α} {R Q : Meaning α}
    (hx : Means size x R) (hy : Means size y Q) :
    Means size (if c then x else y) fun position taken tokens a =>
      if c then R position taken tokens a else Q position taken tokens a := by
  split_ifs
  · exact hx
  · exact hy

theorem Means.unless {c : Prop} [Decidable c] {x : InflateM α} {f : Unit → InflateM α}
    {R : Meaning α} (hx : Means size x R) :
    Means size (if c then failure >>= f else x) fun position taken tokens a =>
      ¬c ∧ R position taken tokens a := by
  split_ifs with hc
  · intro s hs a s'
    constructor
    · rintro ⟨⟩
    · rintro ⟨_, _, ⟨h, -⟩, -⟩
      exact absurd hc h
  · exact hx.congr fun _ _ _ _ => (and_iff_right hc).symm

theorem Means.bind_const {x : InflateM Unit} {R : Meaning Unit} (hx : Means size x R) (a : α) :
    Means size (x >>= fun _ => pure a) fun position taken tokens b =>
      R position taken tokens () ∧ b = a := by
  refine (hx.bind fun _ => means_pure a).congr fun position taken tokens b => ?_
  constructor
  · rintro ⟨⟨⟩, u, _, front, _, hR, ⟨rfl, rfl, rfl⟩, rfl, rfl⟩
    rw [List.append_nil, List.append_nil]
    exact ⟨hR, rfl⟩
  · rintro ⟨hR, rfl⟩
    exact ⟨(), taken, [], tokens, [], hR, ⟨rfl, rfl, rfl⟩, (List.append_nil _).symm,
      (List.append_nil _).symm⟩

theorem Means.get_bind {f : Inflater → InflateM α} {x : InflateM α} {R : Meaning α}
    (hx : Means size x R) (hf : ∀ s, s.input.size = size → f s = x) : Means size (get >>= f) R := by
  intro s hs a s'
  rw [StateT.run_bind, StateT.run_get, pure_bind, hf s hs.size_eq]
  exact hx s hs a s'

def Meaning.reading (R : List Bool → α → Prop) : Meaning α :=
  fun _ taken tokens a => tokens = [] ∧ R taken a

theorem Means.bind_reading {x : InflateM α} {f : α → InflateM β} {R : List Bool → α → Prop}
    {Q : α → Meaning β} (hx : Means size x (Meaning.reading R)) (hf : ∀ a, Means size (f a) (Q a)) :
    Means size (x >>= f) fun position taken tokens b => ∃ a u v,
      R u a ∧ Q a (position + u.length) v tokens b ∧ taken = u ++ v := by
  refine (hx.bind hf).congr fun position taken tokens b => ?_
  constructor
  · rintro ⟨a, u, v, _, back, ⟨rfl, hR⟩, hQ, rfl, rfl⟩
    exact ⟨a, u, v, hR, hQ, rfl⟩
  · rintro ⟨a, u, v, hR, hQ, rfl⟩
    exact ⟨a, u, v, [], tokens, ⟨rfl, hR⟩, hQ, rfl, rfl⟩

theorem Means.bind_pure {x : InflateM α} {f : α → β} {R : List Bool → α → Prop}
    (hx : Means size x (Meaning.reading R)) :
    Means size (x >>= fun a => pure (f a))
      (Meaning.reading fun taken b => ∃ a, R taken a ∧ b = f a) := by
  refine (hx.bind_reading fun a => means_pure (f a)).congr fun position taken tokens b => ?_
  constructor
  · rintro ⟨a, u, v, hR, ⟨rfl, rfl, rfl⟩, rfl⟩
    exact ⟨rfl, a, (List.append_nil u).symm ▸ hR, rfl⟩
  · rintro ⟨rfl, a, hR, rfl⟩
    exact ⟨a, taken, [], hR, ⟨rfl, rfl, rfl⟩, (List.append_nil taken).symm⟩

/-!
# Reading
-/

theorem bit_run (s : Inflater) :
    bit.run s = s.ahead.head?.map fun b => (b.toNat, s.skip 1) := by
  rw [ahead, List.head?_drop, getElem?_bitsOf, Array.getElem?_toList, Option.map_map]
  unfold bit
  rw [StateT.run_bind, StateT.run_get, pure_bind]
  dsimp only
  cases s.input[s.position / 8]? with
  | none => rfl
  | some byte =>
      rw [Option.map_some, Function.comp_apply, Nat.toNat_testBit, ← Nat.shiftRight_eq_div_pow]
      rfl

theorem bit_means :
    Means size bit (Meaning.reading fun taken n => ∃ b, taken = [b] ∧ n = b.toNat) := by
  intro s hs n s'
  rw [bit_run]
  constructor
  · intro h
    obtain ⟨b, hb, heq⟩ := Option.map_eq_some_iff.mp h
    cases heq
    obtain ⟨rest, hrest⟩ := List.head?_eq_some_iff.mp hb
    exact ⟨[b], [], ⟨rfl, b, rfl, rfl⟩, ⟨rest, hrest.symm⟩, rfl⟩
  · rintro ⟨_, _, ⟨rfl, b, rfl, rfl⟩, ⟨rest, hrest⟩, rfl⟩
    rw [← hrest]
    rfl

theorem bits_means (count : ℕ) :
    Means size (bits count) (Meaning.reading fun taken n =>
      taken.length = count ∧ n = numberOfBits taken) := by
  induction count with
  | zero =>
      refine (means_pure 0).congr fun position taken tokens n => ?_
      constructor
      · rintro ⟨rfl, rfl, rfl⟩
        exact ⟨rfl, rfl, rfl⟩
      · rintro ⟨rfl, hlength, rfl⟩
        obtain rfl := List.length_eq_zero_iff.mp hlength
        exact ⟨rfl, rfl, rfl⟩
  | succ count ih =>
      refine (bit_means.bind_reading fun low => ih.bind_pure).congr
        fun position taken tokens n => ?_
      constructor
      · rintro ⟨_, _, v, ⟨b, rfl, rfl⟩, ⟨rfl, _, ⟨hlength, rfl⟩, rfl⟩, rfl⟩
        exact ⟨rfl, congrArg (· + 1) hlength, rfl⟩
      · rintro ⟨rfl, hlength, rfl⟩
        obtain ⟨b, v, rfl⟩ := List.exists_cons_of_length_eq_add_one hlength
        exact ⟨_, [b], v, ⟨b, rfl, rfl⟩, ⟨rfl, _, ⟨Nat.succ.inj hlength, rfl⟩, rfl⟩, rfl⟩

theorem symbol_means (code : PrefixCode) :
    Means size (symbol code) (Meaning.reading fun taken n => (taken, n) ∈ code.words) := by
  -- each bit leads into one of two branches
  induction code with
  | gap =>
      refine means_failure.congr fun position taken tokens n => ?_
      exact ⟨False.elim, fun h => absurd h.2 List.not_mem_nil⟩
  | word symbol =>
      refine (means_pure symbol).congr fun position taken tokens n => ?_
      constructor
      · rintro ⟨rfl, rfl, rfl⟩
        exact ⟨rfl, List.mem_singleton_self _⟩
      · rintro ⟨rfl, hmem⟩
        cases List.mem_singleton.mp hmem
        exact ⟨rfl, rfl, rfl⟩
  | fork zero one ihZero ihOne =>
      have hbranch (n : ℕ) : Means size (if n = 0 then symbol zero else symbol one)
          (Meaning.reading fun taken m =>
            (taken, m) ∈ (if n = 0 then zero else one).words) := by
        split_ifs
        · exact ihZero
        · exact ihOne
      refine (bit_means.bind_reading hbranch).congr fun position taken tokens n => ?_
      rw [Meaning.reading, PrefixCode.mem_words_fork]
      constructor
      · rintro ⟨_, _, v, ⟨b, rfl, rfl⟩, ⟨rfl, hmem⟩, rfl⟩
        cases b with
        | false => exact ⟨rfl, .inl ⟨v, hmem, rfl⟩⟩
        | true => exact ⟨rfl, .inr ⟨v, hmem, rfl⟩⟩
      · rintro ⟨rfl, ⟨v, hmem, rfl⟩ | ⟨v, hmem, rfl⟩⟩
        · exact ⟨0, [false], v, ⟨false, rfl, rfl⟩, ⟨rfl, hmem⟩, rfl⟩
        · exact ⟨1, [true], v, ⟨true, rfl, rfl⟩, ⟨rfl, hmem⟩, rfl⟩

def Extended (table : List (ℕ × ℕ)) (symbol : ℕ) (taken : List Bool) (n : ℕ) : Prop :=
  ∃ least, table[symbol]? = some (least, taken.length) ∧ n = least + numberOfBits taken

theorem extended_means (table : List (ℕ × ℕ)) (symbol : ℕ) :
    Means size (extended table symbol) (Meaning.reading (Extended table symbol)) := by
  unfold extended
  cases htable : table[symbol]? with
  | none =>
      refine means_failure.congr fun position taken tokens n => ⟨False.elim, ?_⟩
      rintro ⟨rfl, least, hleast, -⟩
      rw [htable] at hleast
      cases hleast
  | some entry =>
      obtain ⟨least, extra⟩ := entry
      refine ((bits_means extra).bind_pure (f := fun n => least + n)).congr
        fun position taken tokens n => and_congr_right fun _ => ?_
      constructor
      · rintro ⟨_, ⟨rfl, rfl⟩, rfl⟩
        exact ⟨least, htable, rfl⟩
      · rintro ⟨least', hleast, rfl⟩
        rw [htable] at hleast
        cases hleast
        exact ⟨_, ⟨rfl, rfl⟩, rfl⟩

/-!
# Writing
-/

def Meaning.writing (token : Token) : Meaning Unit :=
  fun _ taken tokens _ => taken = [] ∧ tokens = [token]

theorem means_writing {x : InflateM Unit} {token : Token}
    (h : ∀ s, x.run s = some ((), s.write [token])) : Means size x (Meaning.writing token) := by
  intro s hs a s'
  rw [h]
  constructor
  · rintro heq
    cases heq
    exact ⟨[], [token], ⟨rfl, rfl⟩, List.nil_prefix, rfl⟩
  · rintro ⟨_, _, ⟨rfl, rfl⟩, -, rfl⟩
    rfl

theorem put_means (byte : UInt8) : Means size (put byte) (Meaning.writing (.literal byte)) :=
  means_writing fun _ => rfl

theorem repeatOutput_run (distance count : ℕ) (s : Inflater) :
    (repeatOutput distance count).run s =
      some ((), { s with output := repeated distance count s.output }) := by
  induction count generalizing s with
  | zero => rfl
  | succ count ih =>
      exact ih _

theorem repeatOutput_means (distance count : ℕ) :
    Means size (repeatOutput distance count) (Meaning.writing (.copy distance count)) :=
  means_writing (repeatOutput_run distance count)

theorem Means.bind_writing {x : InflateM Unit} {f : Unit → InflateM β} {token : Token}
    {Q : Meaning β} (hx : Means size x (Meaning.writing token)) (hf : Means size (f ()) Q) :
    Means size (x >>= f) fun position taken tokens b => ∃ rest,
      Q position taken rest b ∧ tokens = token :: rest := by
  refine (hx.bind fun _ => hf).congr fun position taken tokens b => ?_
  constructor
  · rintro ⟨⟨⟩, _, v, _, back, ⟨rfl, rfl⟩, hQ, rfl, rfl⟩
    exact ⟨back, hQ, rfl⟩
  · rintro ⟨rest, hQ, rfl⟩
    exact ⟨(), [], taken, [token], rest, ⟨rfl, rfl⟩, hQ, rfl, rfl⟩

end Inflater
end Archive
end Bytecode
