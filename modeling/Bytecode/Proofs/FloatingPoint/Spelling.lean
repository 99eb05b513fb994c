import Bytecode.FloatingPoint.Spelling
import Bytecode.Proofs.FloatingPoint.Shortest

/-!
# Numbers in texts

What is written for a finite number is a sign and a numeral, and the number that the numeral stands
for rounds back to the word.  So two words that are written alike are the same.
-/

namespace Bytecode
namespace FloatingPoint

/-- Digits before and after a point, and a power of ten. -/
structure Numeral where
  whole : List Char
  fraction : List Char
  exponent : Option ℤ

namespace Numeral

variable {n n' : Numeral} {mark : String}

def text (mark : String) (n : Numeral) : String :=
  String.ofList n.whole ++
    (if n.fraction = [] then "" else "." ++ String.ofList n.fraction) ++
      n.exponent.elim "" fun e => mark ++ toString e

def value (n : Numeral) : ℚ :=
  Nat.ofDigitChars 10 (n.whole ++ n.fraction) 0 *
    10 ^ (n.exponent.getD 0 - (n.fraction.length : ℤ))

structure Proper (n : Numeral) : Prop where
  nonempty : n.whole ≠ []
  whole : ∀ c ∈ n.whole, c.isDigit = true
  fraction : ∀ c ∈ n.fraction, c.isDigit = true

/-- Digits end where no digit follows. -/
theorem digits_end {digits digits' rest rest' : List Char}
    (hdigits : ∀ c ∈ digits, c.isDigit = true) (hdigits' : ∀ c ∈ digits', c.isDigit = true)
    (hrest : ∀ c ∈ rest.head?, c.isDigit = false) (hrest' : ∀ c ∈ rest'.head?, c.isDigit = false)
    (h : digits ++ rest = digits' ++ rest') :
    digits = digits' ∧ rest = rest' := by
  induction digits generalizing digits' with
  | nil =>
      cases digits' with
      | nil => exact ⟨rfl, h⟩
      | cons d digits' =>
          rw [List.nil_append, List.cons_append] at h
          have hfalse := hrest d (by rw [h]; rfl)
          rw [hdigits' d List.mem_cons_self] at hfalse
          cases hfalse
  | cons d digits ih =>
      cases digits' with
      | nil =>
          rw [List.nil_append, List.cons_append] at h
          have hfalse := hrest' d (by rw [← h]; rfl)
          rw [hdigits d List.mem_cons_self] at hfalse
          cases hfalse
      | cons d' digits' =>
          rw [List.cons_append, List.cons_append, List.cons.injEq] at h
          obtain ⟨rfl, h⟩ := h
          obtain ⟨rfl, rfl⟩ := ih (fun c hc => hdigits c (List.mem_cons_of_mem _ hc))
            (fun c hc => hdigits' c (List.mem_cons_of_mem _ hc)) h
          exact ⟨rfl, rfl⟩

theorem repr_injective : Function.Injective Int.repr := by
  have hdigits (k : ℕ) : k.repr.toList = Nat.toDigits 10 k := by
    rw [Nat.repr_eq_ofList_toDigits, String.toList_ofList]
  have hvalue (k : ℕ) : Nat.ofDigitChars 10 k.repr.toList 0 = k := by
    rw [hdigits, Nat.ofDigitChars_ten_toDigits]
  have hsign (k l : ℕ) : k.repr ≠ "-" ++ l.repr := by
    intro h
    have hmem : '-' ∈ Nat.toDigits 10 k := by
      rw [← hdigits, h, String.toList_append]
      exact List.mem_cons_self
    cases Nat.isDigit_of_mem_toDigits (by decide) (by decide) hmem
  intro a b h
  rw [Int.repr_eq_if, Int.repr_eq_if] at h
  split_ifs at h with ha hb hb
  · have hab := hvalue a.toNat
    rw [h, hvalue] at hab
    omega
  · exact absurd h (hsign _ _)
  · exact absurd h.symm (hsign _ _)
  · have hlist := congrArg String.toList h
    rw [String.toList_append, String.toList_append, List.append_cancel_left_eq] at hlist
    have hab := hvalue (-a).toNat
    rw [hlist, hvalue] at hab
    omega

/-- A mark that can be told from digits and a point. -/
def Marks (mark : String) : Prop :=
  ∃ c rest, mark.toList = c :: rest ∧ c.isDigit = false ∧ c ≠ '.'

/-- The power of ten behind the digits. -/
def power (mark : String) (exponent : Option ℤ) : String :=
  exponent.elim "" fun e => mark ++ toString e

theorem power_injective (hmark : Marks mark) : Function.Injective (power mark) := by
  obtain ⟨c, rest, hc, -, -⟩ := hmark
  have hne (e : ℤ) : mark ++ toString e ≠ "" := by
    intro hempty
    have hlist := congrArg String.toList hempty
    rw [String.toList_append, hc] at hlist
    cases hlist
  intro e e' h
  cases e <;> cases e'
  · rfl
  · exact absurd h.symm (hne _)
  · exact absurd h (hne _)
  · have hlist := congrArg String.toList h
    simp only [power, Option.elim_some, String.toList_append, List.append_cancel_left_eq] at hlist
    rw [Option.some_inj]
    exact repr_injective (String.toList_injective hlist)

theorem power_head (hmark : Marks mark) (exponent : Option ℤ) :
    ∀ c ∈ (power mark exponent).toList.head?, c.isDigit = false ∧ c ≠ '.' := by
  obtain ⟨c, rest, hc, hdigit, hpoint⟩ := hmark
  cases exponent with
  | none => intro d hd; cases hd
  | some e =>
      intro d hd
      rw [power, Option.elim_some, String.toList_append, hc] at hd
      cases hd
      exact ⟨hdigit, hpoint⟩

theorem text_toList (n : Numeral) (mark : String) : (n.text mark).toList =
    n.whole ++ ((if n.fraction = [] then [] else '.' :: n.fraction) ++
      (power mark n.exponent).toList) := by
  unfold text
  split
  · simp [power]
  · simp [power]

theorem text_injective (hmark : Marks mark) (hn : n.Proper) (hn' : n'.Proper)
    (h : n.text mark = n'.text mark) : n = n' := by
  have hhead (m : Numeral) : ∀ c ∈ ((if m.fraction = [] then [] else '.' :: m.fraction) ++
      (power mark m.exponent).toList).head?, c.isDigit = false := by
    split
    · exact fun c hc => (power_head hmark m.exponent c hc).1
    · rintro c ⟨⟩
      rfl
  have hlist := congrArg String.toList h
  rw [text_toList, text_toList] at hlist
  obtain ⟨hwhole, hrest⟩ := digits_end hn.whole hn'.whole (hhead n) (hhead n') hlist
  obtain ⟨whole, fraction, exponent⟩ := n
  obtain ⟨whole', fraction', exponent'⟩ := n'
  obtain rfl : whole = whole' := hwhole
  have hpoint (m : Numeral) {rest : List Char} :
      (power mark m.exponent).toList ≠ '.' :: rest := by
    intro heq
    exact (power_head hmark m.exponent '.' (by rw [heq]; rfl)).2 rfl
  by_cases hf : fraction = [] <;> by_cases hf' : fraction' = [] <;>
    simp only [hf, hf', if_true, if_false, List.nil_append, List.cons_append] at hrest
  · obtain rfl := power_injective hmark (String.toList_injective hrest)
    rw [hf, hf']
  · exact absurd hrest (hpoint ⟨whole, fraction, exponent⟩)
  · exact absurd hrest.symm (hpoint ⟨whole, fraction', exponent'⟩)
  · have htail (m : Numeral) : ∀ c ∈ (power mark m.exponent).toList.head?, c.isDigit = false :=
      fun c hc => (power_head hmark m.exponent c hc).1
    obtain ⟨rfl, hpower⟩ := digits_end hn.fraction hn'.fraction
      (htail ⟨whole, fraction, exponent⟩) (htail ⟨whole, fraction', exponent'⟩)
      (List.cons_injective hrest)
    obtain rfl := power_injective hmark (String.toList_injective hpower)
    rfl

end Numeral

/-!
# Layouts
-/

namespace Spelling

variable {d : Decimal}

theorem isDigit_zeros (count : ℕ) : ∀ c ∈ List.replicate count '0', c.isDigit = true := by
  intro c hc
  rw [List.eq_of_mem_replicate hc]
  rfl

section Positional

variable {digits : List Char} {k : ℕ}

/-- A number below one: zeros stand between the point and the digits. -/
theorem numeral_below (hne : digits ≠ []) (hdigits : ∀ c ∈ digits, c.isDigit = true)
    (k : ℕ) (mark : String) :
    ∃ n : Numeral, n.Proper ∧ positional ⟨digits, -k⟩ = n.text mark ∧
      n.value = (Decimal.mk digits (-k)).value := by
  refine ⟨⟨['0'], List.replicate k '0' ++ digits, none⟩,
    ⟨List.cons_ne_nil _ _, isDigit_zeros 1, fun c hc => ?_⟩, ?_, ?_⟩
  · rcases List.mem_append.mp hc with hc | hc
    · exact isDigit_zeros _ c hc
    · exact hdigits c hc
  · have hsmall : (-k : ℤ) ≤ 0 := by omega
    have hzero : "0." = String.ofList ['0'] ++ "." := by decide
    have hfraction : List.replicate k '0' ++ digits ≠ [] := by simp [hne]
    rw [positional, if_pos hsmall, hzero, String.append_assoc, neg_neg, Int.toNat_natCast,
      Numeral.text]
    simp only [hfraction, if_false, Option.elim_none, String.append_empty]
  · have hcount : Nat.ofDigitChars 10 ('0' :: (List.replicate k '0' ++ digits)) 0 =
        Nat.ofDigitChars 10 digits 0 := by
      rw [← List.cons_append, ← List.replicate_succ, Nat.ofDigitChars_append,
        Nat.ofDigitChars_replicate_zero, Nat.mul_zero]
    simp only [Numeral.value, Decimal.value, Option.getD_none, List.cons_append, List.nil_append,
      hcount, List.length_append, List.length_replicate]
    congr 2
    push_cast
    ring

/-- A whole number: zeros stand between the digits and the point. -/
theorem numeral_whole (hne : digits ≠ []) (hdigits : ∀ c ∈ digits, c.isDigit = true)
    (hk : ¬ (k : ℤ) ≤ 0) (hshort : digits.length ≤ k) (mark : String) :
    ∃ n : Numeral, n.Proper ∧ positional ⟨digits, k⟩ = n.text mark ∧
      n.value = (Decimal.mk digits k).value := by
  refine ⟨⟨digits ++ List.replicate (k - digits.length) '0', ['0'], none⟩,
    ⟨by simp [hne], fun c hc => ?_, isDigit_zeros 1⟩, ?_, ?_⟩
  · rcases List.mem_append.mp hc with hc | hc
    · exact hdigits c hc
    · exact isDigit_zeros _ c hc
  · unfold positional
    dsimp only
    rw [if_neg hk, Int.toNat_natCast, List.take_of_length_le hshort,
      List.drop_eq_nil_of_le hshort, if_pos rfl]
    simp [Numeral.text, String.append_assoc]
  · have hcount : Nat.ofDigitChars 10 (digits ++ List.replicate (k - digits.length) '0' ++
        ['0']) 0 = 10 ^ (k - digits.length + 1) * Nat.ofDigitChars 10 digits 0 := by
      rw [List.append_assoc, ← List.replicate_succ', Nat.ofDigitChars_append,
        Nat.ofDigitChars_replicate_zero]
    have hsplit : (k - digits.length : ℤ) = (k - digits.length : ℕ) := by omega
    simp only [Numeral.value, Decimal.value, Option.getD_none, hcount, List.length_singleton,
      hsplit, zpow_natCast]
    push_cast
    rw [zpow_neg_one, pow_succ]
    field_simp

/-- Otherwise the point stands among the digits. -/
theorem numeral_between (hdigits : ∀ c ∈ digits, c.isDigit = true)
    (hk : ¬ (k : ℤ) ≤ 0) (hlong : k < digits.length) (mark : String) :
    ∃ n : Numeral, n.Proper ∧ positional ⟨digits, k⟩ = n.text mark ∧
      n.value = (Decimal.mk digits k).value := by
  have hzeros : k - digits.length = 0 := by omega
  have hdrop : digits.drop k ≠ [] := by
    rw [ne_eq, List.drop_eq_nil_iff]
    omega
  refine ⟨⟨digits.take k, digits.drop k, none⟩, ⟨?_, ?_, ?_⟩, ?_, ?_⟩
  · rw [ne_eq, List.take_eq_nil_iff, not_or]
    exact ⟨by omega, List.ne_nil_of_length_pos (by omega)⟩
  · exact fun c hc => hdigits c (List.mem_of_mem_take hc)
  · exact fun c hc => hdigits c (List.mem_of_mem_drop hc)
  · unfold positional
    dsimp only
    rw [if_neg hk, Int.toNat_natCast, if_neg hdrop, hzeros, List.replicate_zero, List.append_nil]
    simp [Numeral.text, hdrop, String.append_assoc]
  · simp only [Numeral.value, Decimal.value, Option.getD_none, List.take_append_drop,
      List.length_drop]
    congr 2
    omega

end Positional

theorem positional_numeral (hne : d.digits ≠ []) (hdigits : ∀ c ∈ d.digits, c.isDigit = true)
    (mark : String) :
    ∃ n : Numeral, n.Proper ∧ positional d = n.text mark ∧ n.value = d.value := by
  obtain ⟨digits, exponent⟩ := d
  by_cases hsmall : exponent ≤ 0
  · obtain ⟨k, hk⟩ := Int.eq_ofNat_of_zero_le (Int.neg_nonneg.mpr hsmall)
    obtain rfl : exponent = -k := by omega
    exact numeral_below hne hdigits k mark
  · obtain ⟨k, rfl⟩ := Int.eq_ofNat_of_zero_le (not_le.mp hsmall).le
    rcases le_or_gt digits.length k with hshort | hlong
    · exact numeral_whole hne hdigits hsmall hshort mark
    · exact numeral_between hdigits hsmall hlong mark

theorem scientific_numeral (s : Spelling) (hne : d.digits ≠ [])
    (hdigits : ∀ c ∈ d.digits, c.isDigit = true) :
    ∃ n : Numeral, n.Proper ∧ s.scientific d = n.text s.exponentMark ∧ n.value = d.value := by
  obtain ⟨digits, exponent⟩ := d
  obtain ⟨first, rest, rfl⟩ := List.exists_cons_of_ne_nil hne
  have hfirst : ∀ c ∈ [first], c.isDigit = true := by
    intro c hc
    exact hdigits c (List.mem_cons.mpr (.inl (List.mem_singleton.mp hc)))
  unfold scientific
  by_cases hpoint : rest = [] ∧ s.pointBeforeExponent = true
  · obtain ⟨rfl, hpoint⟩ := hpoint
    refine ⟨⟨[first], ['0'], some (exponent - 1)⟩,
      ⟨List.cons_ne_nil _ _, hfirst, isDigit_zeros 1⟩, ?_, ?_⟩
    · simp [Numeral.text, hpoint, String.append_assoc]
    · have hcount : Nat.ofDigitChars 10 [first, '0'] 0 = 10 * Nat.ofDigitChars 10 [first] 0 :=
        Nat.ofDigitChars_append (l := [first]) (m := ['0']) 0
      simp only [Numeral.value, Decimal.value, Option.getD_some, List.cons_append,
        List.nil_append, hcount, List.length_singleton]
      push_cast
      rw [zpow_sub_one₀ (by norm_num) (exponent - 1)]
      field_simp
  · refine ⟨⟨[first], rest, some (exponent - 1)⟩,
      ⟨List.cons_ne_nil _ _, hfirst, fun c hc => hdigits c (List.mem_cons_of_mem _ hc)⟩, ?_, ?_⟩
    · cases rest with
      | nil =>
          rw [not_and, Bool.not_eq_true] at hpoint
          simp [Numeral.text, hpoint rfl, String.append_assoc]
      | cons second rest => simp [Numeral.text, String.append_assoc]
    · simp only [Numeral.value, Decimal.value, Option.getD_some, List.length_cons, List.cons_append,
        List.nil_append]
      congr 2
      push_cast
      ring

theorem layout_numeral (s : Spelling) (hne : d.digits ≠ [])
    (hdigits : ∀ c ∈ d.digits, c.isDigit = true) :
    ∃ n : Numeral, n.Proper ∧
      (if s.leastPositional ≤ d.exponent && d.exponent ≤ s.greatestPositional then positional d
        else s.scientific d) = n.text s.exponentMark ∧ n.value = d.value := by
  split
  · exact positional_numeral hne hdigits s.exponentMark
  · exact s.scientific_numeral hne hdigits

end Spelling

/-!
# Written words
-/

/-- What is written for a finite number is its sign and a numeral whose number rounds to it. -/
theorem Spelling.write_numeral (s : Spelling) {f : Format} {word m : ℕ} {e : ℤ} {negative : Bool}
    (hf : f.Modest) (h : f.unpack word = .finite negative m e) (hword : word < 2 * f.signBit) :
    ∃ n : Numeral, n.Proper ∧
      s.write f word = (if negative then "-" else "") ++ n.text s.exponentMark ∧
        f.Rounds (oriented negative n.value) word := by
  unfold write
  rw [h]
  dsimp only
  by_cases hm : m = 0
  · subst hm
    rw [if_pos rfl]
    refine ⟨⟨['0'], ['0'], none⟩, ⟨List.cons_ne_nil _ _, isDigit_zeros 1, isDigit_zeros 1⟩, ?_, ?_⟩
    · simp [Numeral.text]
    · have hrounds := Format.pack_rounds hf.proper negative 0 e
      rw [Format.pack_unpack hf.proper hword h, Nat.cast_zero, zero_mul] at hrounds
      have hzero : Nat.ofDigitChars 10 ['0', '0'] 0 = 0 := by decide
      have hvalue : Numeral.value ⟨['0'], ['0'], none⟩ = 0 := by
        simp [Numeral.value, hzero]
      rwa [hvalue]
  · rw [if_neg hm]
    obtain ⟨hne, hdigits⟩ := Format.shortest_digits hf h hm
    obtain ⟨n, hn, htext, hvalue⟩ := s.layout_numeral hne hdigits
    refine ⟨n, hn, by rw [htext], ?_⟩
    rw [hvalue]
    exact Format.shortest_rounds hf h hm hword

example : printed.write double 0x3FB999999999999A = "0.1" := by decide +kernel

theorem Numeral.sign_injective {n n' : Numeral} (hn : n.Proper) (hn' : n'.Proper) {mark : String}
    {negative negative' : Bool} (h : (if negative then "-" else "") ++ n.text mark =
      (if negative' then "-" else "") ++ n'.text mark) :
    negative = negative' ∧ n.text mark = n'.text mark := by
  have hhead (m : Numeral) (hm : m.Proper) (rest : String) : m.text mark ≠ "-" ++ rest := by
    intro heq
    have hlist := congrArg String.toList heq
    rw [text_toList, String.toList_append] at hlist
    obtain ⟨d, digits, hdigits⟩ := List.exists_cons_of_ne_nil hm.nonempty
    rw [hdigits] at hlist
    obtain rfl : d = '-' := (List.cons.inj hlist).1
    have hdigit := hm.whole '-' (by rw [hdigits]; exact List.mem_cons_self)
    cases hdigit
  cases negative <;> cases negative' <;>
    simp only [if_true, Bool.false_eq_true, if_false, String.empty_append] at h
  · exact ⟨rfl, h⟩
  · exact absurd h (hhead n hn _)
  · exact absurd h.symm (hhead n' hn' _)
  · have hlist := congrArg String.toList h
    rw [String.toList_append, String.toList_append, List.append_cancel_left_eq] at hlist
    exact ⟨rfl, String.toList_injective hlist⟩

theorem Spelling.write_injective (s : Spelling) (hs : Numeral.Marks s.exponentMark) {f : Format}
    (hf : f.Modest) {word word' m m' : ℕ} {e e' : ℤ} {negative negative' : Bool}
    (h : f.unpack word = .finite negative m e) (h' : f.unpack word' = .finite negative' m' e')
    (hword : word < 2 * f.signBit) (hword' : word' < 2 * f.signBit)
    (hsame : s.write f word = s.write f word') : word = word' := by
  obtain ⟨n, hn, htext, hrounds⟩ := s.write_numeral hf h hword
  obtain ⟨n', hn', htext', hrounds'⟩ := s.write_numeral hf h' hword'
  rw [htext, htext'] at hsame
  obtain ⟨rfl, hnumeral⟩ := Numeral.sign_injective hn hn' hsame
  obtain rfl := Numeral.text_injective hs hn hn' hnumeral
  exact hrounds.unique hf.proper h h' hword hword' hrounds'

theorem plain_marks : Numeral.Marks plain.exponentMark :=
  ⟨'e', [], by decide, by decide, by decide⟩

theorem printed_marks : Numeral.Marks printed.exponentMark :=
  ⟨'E', [], by decide, by decide, by decide⟩

/-- In the messages of the program and in what it prints, different numbers look different. -/
theorem Spelling.written_apart {s : Spelling} (hs : s = plain ∨ s = printed) {f : Format}
    (hf : f = single ∨ f = double) {word word' m m' : ℕ} {e e' : ℤ} {negative negative' : Bool}
    (h : f.unpack word = .finite negative m e) (h' : f.unpack word' = .finite negative' m' e')
    (hword : word < 2 * f.signBit) (hword' : word' < 2 * f.signBit) (hne : word ≠ word') :
    s.write f word ≠ s.write f word' := by
  have hmarks : Numeral.Marks s.exponentMark := by
    rcases hs with rfl | rfl
    · exact plain_marks
    · exact printed_marks
  have hmodest : f.Modest := by
    rcases hf with rfl | rfl
    · exact Format.single_modest
    · exact Format.double_modest
  exact fun hsame => hne (s.write_injective hmarks hmodest h h' hword hword' hsame)

end FloatingPoint
end Bytecode
