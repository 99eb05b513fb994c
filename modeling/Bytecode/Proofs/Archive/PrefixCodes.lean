import Bytecode.Archive.PrefixCode
import Mathlib.Algebra.Ring.Nat
import Mathlib.Data.List.Basic
import Mathlib.Data.List.Pairwise
import Mathlib.Data.Nat.Notation

/-!
# Prefix codes of word lengths

The words of a code are the ways to its leaves.  A code that is made from word lengths has exactly
the words asked for, shorter ones first and no room left between them.
-/

namespace Bytecode
namespace Archive
namespace PrefixCode

/-!
# Words
-/

/-- The words of a code with their symbols, from the lowest to the highest. -/
def words : PrefixCode → List (List Bool × ℕ)
  | gap => []
  | word symbol => [([], symbol)]
  | fork zero one =>
      zero.words.map (fun w => (false :: w.1, w.2)) ++ one.words.map (fun w => (true :: w.1, w.2))

theorem mem_words_fork {zero one : PrefixCode} {w : List Bool × ℕ} :
    w ∈ (fork zero one).words ↔
      (∃ rest, (rest, w.2) ∈ zero.words ∧ w.1 = false :: rest) ∨
      (∃ rest, (rest, w.2) ∈ one.words ∧ w.1 = true :: rest) := by
  rcases w with ⟨bits, symbol⟩
  simp only [words, List.mem_append, List.mem_map, Prod.mk.injEq, Prod.exists]
  constructor
  · rintro (⟨rest, symbol', h, rfl, rfl⟩ | ⟨rest, symbol', h, rfl, rfl⟩)
    · exact .inl ⟨rest, h, rfl⟩
    · exact .inr ⟨rest, h, rfl⟩
  · rintro (⟨rest, h, rfl⟩ | ⟨rest, h, rfl⟩)
    · exact .inl ⟨rest, symbol, h, rfl, rfl⟩
    · exact .inr ⟨rest, symbol, h, rfl, rfl⟩

/-- No word is the beginning of another. -/
theorem words_prefixFree (code : PrefixCode) :
    code.words.Pairwise fun v w => ¬v.1 <+: w.1 ∧ ¬w.1 <+: v.1 := by
  -- words of one branch start with the same bit, those of different branches do not
  induction code with
  | gap => exact .nil
  | word symbol => exact List.pairwise_singleton _ _
  | fork zero one ihZero ihOne =>
      refine List.pairwise_append.mpr ⟨?_, ?_, ?_⟩
      · refine List.pairwise_map.mpr (ihZero.imp fun h => ?_)
        simpa only [List.cons_prefix_cons, true_and] using h
      · refine List.pairwise_map.mpr (ihOne.imp fun h => ?_)
        simpa only [List.cons_prefix_cons, true_and] using h
      · intro v hv w hw
        obtain ⟨v, -, rfl⟩ := List.mem_map.mp hv
        obtain ⟨w, -, rfl⟩ := List.mem_map.mp hw
        simp [List.cons_prefix_cons]

/-!
# Room
-/

/-- How many sequences of `levels` bits start with a word of a length. -/
def room (levels length : ℕ) : ℕ :=
  2 ^ (levels - length)

def roomOf (levels : ℕ) (words : List (List Bool × ℕ)) : ℕ :=
  (words.map fun w => room levels w.1.length).sum

def Fits (levels : ℕ) (code : PrefixCode) : Prop :=
  ∀ w ∈ code.words, w.1.length ≤ levels

variable {levels depth : ℕ} {code zero one : PrefixCode}

theorem roomOf_append (front back : List (List Bool × ℕ)) :
    roomOf levels (front ++ back) = roomOf levels front + roomOf levels back := by
  rw [roomOf, List.map_append, List.sum_append]
  rfl

theorem roomOf_under (b : Bool) (words : List (List Bool × ℕ)) :
    roomOf (levels + 1) (words.map fun w => (b :: w.1, w.2)) = roomOf levels words := by
  simp only [roomOf, room, List.map_map, Function.comp_def, List.length_cons,
    Nat.add_sub_add_right]

theorem roomOf_fork :
    roomOf (levels + 1) (fork zero one).words =
      roomOf levels zero.words + roomOf levels one.words := by
  rw [words, roomOf_append, roomOf_under, roomOf_under]

theorem fits_fork : Fits (levels + 1) (fork zero one) ↔ Fits levels zero ∧ Fits levels one := by
  simp only [Fits, words, List.forall_mem_append, List.forall_mem_map, List.length_cons,
    Nat.add_le_add_iff_right]

theorem fits_fork_zero (h : Fits 0 (fork zero one)) : zero.words = [] ∧ one.words = [] := by
  simp only [Fits, words, List.forall_mem_append, List.forall_mem_map, List.length_cons,
    Nat.le_zero, Nat.succ_ne_zero] at h
  exact ⟨List.eq_nil_iff_forall_not_mem.mpr h.1, List.eq_nil_iff_forall_not_mem.mpr h.2⟩

theorem roomOf_le (h : Fits levels code) : roomOf levels code.words ≤ 2 ^ levels := by
  induction code generalizing levels with
  | gap => exact Nat.zero_le _
  | word symbol => simp [words, roomOf, room]
  | fork zero one ihZero ihOne =>
      cases levels with
      | zero =>
          obtain ⟨hzero, hone⟩ := fits_fork_zero h
          simp [words, roomOf, hzero, hone]
      | succ levels =>
          obtain ⟨hzero, hone⟩ := fits_fork.mp h
          have hzero := ihZero hzero
          have hone := ihOne hone
          rw [roomOf_fork, Nat.pow_succ]
          omega

theorem words_ne_nil_of_isFull (h : code.isFull = true) : code.words ≠ [] := by
  induction code with
  | gap => cases h
  | word symbol => exact List.cons_ne_nil _ _
  | fork zero one ihZero ihOne =>
      simp only [isFull, Bool.and_eq_true] at h
      simp [words, ihZero h.1]

theorem isFull_iff (h : Fits levels code) :
    code.isFull = true ↔ roomOf levels code.words = 2 ^ levels := by
  induction code generalizing levels with
  | gap =>
      have hpos := Nat.two_pow_pos levels
      simp only [isFull, words, roomOf, List.map_nil, List.sum_nil, Bool.false_eq_true, false_iff]
      omega
  | word symbol => simp [isFull, words, roomOf, room]
  | fork zero one ihZero ihOne =>
      cases levels with
      | zero =>
          obtain ⟨hzero, hone⟩ := fits_fork_zero h
          have hnotFull : ¬zero.isFull = true := fun hfull => words_ne_nil_of_isFull hfull hzero
          simp [isFull, words, roomOf, hzero, hone, hnotFull]
      | succ levels =>
          obtain ⟨hzero, hone⟩ := fits_fork.mp h
          have hzeroLe := roomOf_le hzero
          have honeLe := roomOf_le hone
          rw [isFull, Bool.and_eq_true, ihZero hzero, ihOne hone, roomOf_fork, Nat.pow_succ]
          omega

/-!
# Growth
-/

/-- Lengths of words that start at a depth, with their symbols. -/
def lengthsAt (depth : ℕ) (code : PrefixCode) : List (ℕ × ℕ) :=
  code.words.map fun w => (depth + w.1.length, w.2)

theorem lengthsAt_fork :
    (fork zero one).lengthsAt depth = zero.lengthsAt (depth + 1) ++ one.lengthsAt (depth + 1) := by
  simp only [lengthsAt, words, List.map_append, List.map_map]
  congr 1 <;> (congr 1; funext w; simp; omega)

theorem grow_lengths (levels depth : ℕ) (wanted : List (ℕ × ℕ)) :
    (grow levels depth wanted).1.lengthsAt depth ++ (grow levels depth wanted).2 = wanted := by
  fun_induction grow levels depth wanted with
  | case1 => rfl
  | case2 => rfl
  | case3 => rfl
  | case4 => rfl
  | case5 levels depth length symbol rest hne zero rest' hzero one rest'' hone ih₁ ih₂ =>
      rw [hzero] at ih₁
      rw [hone] at ih₂
      rw [lengthsAt_fork, List.append_assoc, ih₂, ih₁]

/-- No word starts behind a gap. -/
def Packed : PrefixCode → Prop
  | fork zero one => zero.Packed ∧ one.Packed ∧ (zero.isFull = true ∨ one.words = [])
  | _ => True

/-- Lengths in order that a code of `levels` levels at a depth can have. -/
structure Orderly (levels depth : ℕ) (wanted : List (ℕ × ℕ)) : Prop where
  sorted : wanted.Pairwise (·.1 ≤ ·.1)
  bounds : ∀ w ∈ wanted, depth ≤ w.1 ∧ w.1 ≤ depth + levels

theorem Orderly.sublist {wanted wanted' : List (ℕ × ℕ)} (h : Orderly levels depth wanted)
    (hsub : wanted'.Sublist wanted) : Orderly levels depth wanted' :=
  ⟨h.sorted.sublist hsub, fun w hw => h.bounds w (hsub.subset hw)⟩

theorem Orderly.below {length symbol : ℕ} {rest : List (ℕ × ℕ)}
    (h : Orderly (levels + 1) depth ((length, symbol) :: rest)) (hne : length ≠ depth) :
    Orderly levels (depth + 1) ((length, symbol) :: rest) := by
  refine ⟨h.sorted, fun w hw => ?_⟩
  obtain ⟨hlow, hhigh⟩ := h.bounds w hw
  have hfirst := (h.bounds (length, symbol) List.mem_cons_self).1
  have hle : length ≤ w.1 := by
    rcases List.mem_cons.mp hw with rfl | hrest
    · exact Nat.le_refl _
    · exact (List.pairwise_cons.mp h.sorted).1 w hrest
  dsimp only at hfirst
  omega

theorem grow_rest_sublist (levels depth : ℕ) (wanted : List (ℕ × ℕ)) :
    (grow levels depth wanted).2.Sublist wanted := by
  conv_rhs => rw [← grow_lengths levels depth wanted]
  exact List.sublist_append_right _ _

theorem grow_nil (levels depth : ℕ) : grow levels depth [] = (gap, []) := by
  rw [grow]

/-- Words stand side by side, and room is left behind them only if all symbols have one. -/
theorem grow_packed {wanted : List (ℕ × ℕ)} (h : Orderly levels depth wanted) :
    (grow levels depth wanted).1.Packed ∧
      ((grow levels depth wanted).2 = [] ∨ (grow levels depth wanted).1.isFull = true) := by
  -- the second branch gets no words as long as the first one has room
  fun_induction grow levels depth wanted with
  | case1 => exact ⟨trivial, .inl rfl⟩
  | case2 => exact ⟨trivial, .inr rfl⟩
  | case3 depth length symbol rest hne =>
      have hbounds := h.bounds (length, symbol) List.mem_cons_self
      dsimp only at hbounds
      omega
  | case4 => exact ⟨trivial, .inr rfl⟩
  | case5 levels depth length symbol rest hne zero rest' hzero one rest'' hone ih₁ ih₂ =>
      have hbelow := h.below hne
      have hsub := grow_rest_sublist levels (depth + 1) ((length, symbol) :: rest)
      rw [hzero] at ih₁ hsub
      rw [hone] at ih₂
      obtain ⟨hzeroPacked, hzeroEnd⟩ := ih₁ hbelow
      obtain ⟨honePacked, honeEnd⟩ := ih₂ (hbelow.sublist hsub)
      dsimp only at hzeroPacked hzeroEnd honePacked honeEnd
      rcases hzeroEnd with rfl | hfull
      · rw [grow_nil] at hone
        cases hone
        exact ⟨⟨hzeroPacked, trivial, .inr rfl⟩, .inl rfl⟩
      · refine ⟨⟨hzeroPacked, honePacked, .inl hfull⟩, honeEnd.imp_right fun hfull' => ?_⟩
        rw [isFull, hfull, hfull', Bool.and_self]

/-!
# Places
-/

/-- The number of the first sequence of `levels` bits that starts with the bits. -/
def place : ℕ → List Bool → ℕ
  | _, [] => 0
  | levels, bit :: rest => (if bit then 2 ^ (levels - 1) else 0) + place (levels - 1) rest

/-- Each word starts where the room of those before it ends; the first one starts at `start`. -/
def Consecutive (levels : ℕ) : ℕ → List (List Bool × ℕ) → Prop
  | _, [] => True
  | start, w :: rest =>
      place levels w.1 = start ∧ Consecutive levels (start + room levels w.1.length) rest

theorem consecutive_append {start : ℕ} {front back : List (List Bool × ℕ)} :
    Consecutive levels start (front ++ back) ↔
      Consecutive levels start front ∧ Consecutive levels (start + roomOf levels front) back := by
  induction front generalizing start with
  | nil => exact ⟨fun h => ⟨trivial, h⟩, fun h => h.2⟩
  | cons w rest ih =>
      rw [List.cons_append, Consecutive, Consecutive, ih, and_assoc, Nat.add_assoc]
      rfl

theorem Consecutive.under {start : ℕ} {words : List (List Bool × ℕ)}
    (h : Consecutive levels start words) (bit : Bool) :
    Consecutive (levels + 1) ((if bit then 2 ^ levels else 0) + start)
      (words.map fun w => (bit :: w.1, w.2)) := by
  induction words generalizing start with
  | nil => trivial
  | cons w rest ih =>
      obtain ⟨hplace, hrest⟩ := h
      refine ⟨congrArg _ hplace, ?_⟩
      have hnext := ih hrest
      rw [← Nat.add_assoc] at hnext
      rwa [List.length_cons, room, Nat.add_sub_add_right]

theorem words_consecutive (hpacked : code.Packed) (hfits : Fits levels code) :
    Consecutive levels 0 code.words := by
  induction code generalizing levels with
  | gap => trivial
  | word symbol => exact ⟨rfl, trivial⟩
  | fork zero one ihZero ihOne =>
      cases levels with
      | zero =>
          obtain ⟨hzero, hone⟩ := fits_fork_zero hfits
          rw [words, hzero, hone]
          trivial
      | succ levels =>
          obtain ⟨hzeroFits, honeFits⟩ := fits_fork.mp hfits
          obtain ⟨hzeroPacked, honePacked, hend⟩ := hpacked
          rw [words, consecutive_append, roomOf_under, Nat.zero_add]
          refine ⟨(ihZero hzeroPacked hzeroFits).under false, ?_⟩
          rcases hend with hfull | hnone
          · rw [(isFull_iff hzeroFits).mp hfull]
            exact (ihOne honePacked honeFits).under true
          · rw [hnone]
            trivial

/-!
# Codes of word lengths
-/

variable {lengths : List ℕ}

theorem mem_wordLengths {n symbol : ℕ} :
    (n, symbol) ∈ wordLengths lengths ↔ lengths[symbol]? = some n ∧ 1 ≤ n ∧ n ≤ maxLength := by
  simp only [wordLengths, List.mem_flatMap, List.mem_range, List.mem_filter,
    List.mem_zipIdx_iff_getElem?, decide_eq_true_eq]
  constructor
  · rintro ⟨m, hm, hget, rfl⟩
    exact ⟨hget, by omega, hm⟩
  · rintro ⟨hget, hpos, hle⟩
    exact ⟨n - 1, by omega, hget, by omega⟩

theorem wordLengths_orderly (lengths : List ℕ) : Orderly maxLength 0 (wordLengths lengths) := by
  have hlength (n : ℕ) : ∀ w ∈ lengths.zipIdx.filter (·.1 = n + 1), w.1 = n + 1 :=
    fun w hw => of_decide_eq_true (List.mem_filter.mp hw).2
  refine ⟨List.pairwise_flatMap.mpr ⟨fun n hn => ?_, ?_⟩, fun w hw => ?_⟩
  · refine List.pairwise_of_forall_mem_list fun v hv w hw => ?_
    exact Nat.le_of_eq ((hlength n v hv).trans (hlength n w hw).symm)
  · refine List.pairwise_lt_range.imp fun hlt v hv w hw => ?_
    rw [hlength _ v hv, hlength _ w hw]
    omega
  · have hw := mem_wordLengths.mp hw
    omega

theorem words_of_grow (lengths : List ℕ) :
    ((grow maxLength 0 (wordLengths lengths)).1.words.map fun w => (w.1.length, w.2)) ++
      (grow maxLength 0 (wordLengths lengths)).2 = wordLengths lengths := by
  simpa only [lengthsAt, Nat.zero_add] using grow_lengths maxLength 0 (wordLengths lengths)

theorem grow_fits (lengths : List ℕ) :
    Fits maxLength (grow maxLength 0 (wordLengths lengths)).1 := by
  intro w hw
  have hmem := List.mem_append_left (grow maxLength 0 (wordLengths lengths)).2
    (List.mem_map_of_mem (f := fun w : List Bool × ℕ => (w.1.length, w.2)) hw)
  rw [words_of_grow] at hmem
  exact (mem_wordLengths.mp hmem).2.2

theorem ofLengths?_eq_some (h : ofLengths? lengths = some code) :
    grow maxLength 0 (wordLengths lengths) = (code, []) := by
  unfold ofLengths? at h
  dsimp only at h
  split_ifs at h with hgood
  rw [Bool.and_eq_true, List.isEmpty_iff] at hgood
  exact Prod.ext (Option.some.inj h) hgood.1

/-- A code has a word for each symbol whose length is not zero. -/
theorem ofLengths?_mem_iff (h : ofLengths? lengths = some code) {n symbol : ℕ} :
    (∃ bits, (bits, symbol) ∈ code.words ∧ bits.length = n) ↔
      lengths[symbol]? = some n ∧ 1 ≤ n ∧ n ≤ maxLength := by
  have hwords := words_of_grow lengths
  rw [ofLengths?_eq_some h, List.append_nil] at hwords
  rw [← mem_wordLengths, ← hwords, List.mem_map]
  constructor
  · rintro ⟨bits, hbits, rfl⟩
    exact ⟨_, hbits, rfl⟩
  · rintro ⟨⟨bits, symbol'⟩, hbits, heq⟩
    cases heq
    exact ⟨bits, hbits, rfl⟩

/-- Shorter words stand before longer ones, and each word starts where the room of those before it
ends. -/
theorem ofLengths?_place (h : ofLengths? lengths = some code)
    {front back : List (List Bool × ℕ)} {w : List Bool × ℕ} (hw : code.words = front ++ w :: back) :
    place maxLength w.1 = roomOf maxLength front := by
  have hpacked := (grow_packed (wordLengths_orderly lengths)).1
  have hconsecutive := words_consecutive hpacked (grow_fits lengths)
  rw [ofLengths?_eq_some h, hw, consecutive_append, Nat.zero_add] at hconsecutive
  exact hconsecutive.2.1

def roomWanted (wanted : List (ℕ × ℕ)) : ℕ :=
  (wanted.map fun w => room maxLength w.1).sum

theorem roomOf_grow (lengths : List ℕ) :
    roomOf maxLength (grow maxLength 0 (wordLengths lengths)).1.words +
      roomWanted (grow maxLength 0 (wordLengths lengths)).2 = roomWanted (wordLengths lengths) := by
  have hwords := congrArg roomWanted (words_of_grow lengths)
  rwa [roomWanted, List.map_append, List.sum_append, List.map_map] at hwords

theorem roomWanted_pos {wanted : List (ℕ × ℕ)} (h : wanted ≠ []) : 0 < roomWanted wanted := by
  obtain ⟨w, rest, rfl⟩ := List.exists_cons_of_ne_nil h
  rw [roomWanted, List.map_cons, List.sum_cons]
  exact Nat.add_pos_left (Nat.two_pow_pos _) _

theorem grow_rest_iff (lengths : List ℕ) :
    (grow maxLength 0 (wordLengths lengths)).2 = [] ↔
      roomWanted (wordLengths lengths) ≤ 2 ^ maxLength := by
  have hfits := grow_fits lengths
  have hrooms := roomOf_grow lengths
  constructor
  · intro h
    rw [h] at hrooms
    exact hrooms ▸ roomOf_le hfits
  · intro h
    by_contra hrest
    have hfull := (grow_packed (wordLengths_orderly lengths)).2.resolve_left hrest
    have hpos := roomWanted_pos hrest
    rw [(isFull_iff hfits).mp hfull] at hrooms
    omega

/-- There is a code if its words take all the room, or if they take some of it and have one bit. -/
theorem ofLengths?_isSome_iff :
    (ofLengths? lengths).isSome = true ↔
      roomWanted (wordLengths lengths) = 2 ^ maxLength ∨
        roomWanted (wordLengths lengths) ≤ 2 ^ maxLength ∧
          ∀ w ∈ wordLengths lengths, w.1 = 1 := by
  have hrest := grow_rest_iff lengths
  have hfull := isFull_iff (grow_fits lengths)
  have hrooms := roomOf_grow lengths
  have hsome : (ofLengths? lengths).isSome = true ↔
      (grow maxLength 0 (wordLengths lengths)).2 = [] ∧
        ((grow maxLength 0 (wordLengths lengths)).1.isFull = true ∨
          ∀ w ∈ wordLengths lengths, w.1 = 1) := by
    unfold ofLengths?
    dsimp only
    split_ifs with hgood <;> simpa using hgood
  rw [hsome, hrest, hfull]
  constructor
  · rintro ⟨hle, hall | hone⟩
    · exact .inl (by omega)
    · exact .inr ⟨hle, hone⟩
  · rintro (hall | ⟨hle, hone⟩)
    · have hnone := hrest.mpr (by omega)
      rw [hnone] at hrooms
      exact ⟨by omega, .inl (by simpa [roomWanted] using hrooms.trans hall)⟩
    · exact ⟨hle, .inr hone⟩

end PrefixCode
end Archive
end Bytecode
