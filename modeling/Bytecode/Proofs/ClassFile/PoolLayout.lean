import Bytecode.Proofs.ClassFile.Truncation

/-!
# Layout of constant tables

A reader of constants enters them one after another, a wide one with an index behind it that holds
nothing.  So the indices that hold nothing are zero and those behind a wide constant, and a table
that is read to its declared count has no wide constant at its end.
-/

namespace Bytecode

/-!
# Entries
-/

namespace Constant

def WideAt (entries : Array Constant) (index : Nat) : Prop :=
  ∃ constant, entries[index]? = some constant ∧ constant.isWide = true

/-- Exactly those entries hold nothing that are the first or stand behind a wide constant. -/
structure Spaced (entries : Array Constant) : Prop where
  nonempty : 0 < entries.size
  unusable_iff : ∀ index < entries.size,
    entries[index]? = some .unusable ↔ index = 0 ∨ WideAt entries (index - 1)

variable {entries : Array Constant} {constant : Constant} {index : Nat}

theorem wideAt_push_of_lt (h : index < entries.size) :
    WideAt (entries.push constant) index ↔ WideAt entries index := by
  unfold WideAt
  rw [Array.getElem?_push, if_neg (Nat.ne_of_lt h)]

theorem wideAt_push_last :
    WideAt (entries.push constant) ((entries.push constant).size - 1) ↔
      constant.isWide = true := by
  unfold WideAt
  rw [Array.size_push, Nat.add_sub_cancel, Array.getElem?_push, if_pos rfl]
  constructor
  · rintro ⟨constant', hlast, hwide⟩
    cases hlast
    exact hwide
  · intro hwide
    exact ⟨constant, rfl, hwide⟩

theorem not_wideAt_first : ¬ WideAt #[.unusable] 0 := by
  rintro ⟨constant, hentry, hwide⟩
  cases hentry
  cases hwide

namespace Spaced

theorem first : Spaced #[.unusable] := by
  refine ⟨Nat.one_pos, ?_⟩
  intro index hindex
  cases Nat.lt_one_iff.mp hindex
  exact ⟨fun _ => .inl rfl, fun _ => rfl⟩

/-- The next entry holds nothing exactly if the last one is wide. -/
theorem push (h : Spaced entries)
    (hnext : constant = .unusable ↔ WideAt entries (entries.size - 1)) :
    Spaced (entries.push constant) := by
  have hpos := h.nonempty
  refine ⟨by rw [Array.size_push]; omega, ?_⟩
  intro index hindex
  rw [Array.size_push] at hindex
  rcases Nat.lt_succ_iff_lt_or_eq.mp hindex with hlt | rfl
  · rw [Array.getElem?_push, if_neg (Nat.ne_of_lt hlt), wideAt_push_of_lt (by omega)]
    exact h.unusable_iff index hlt
  · rw [Array.getElem?_push, if_pos rfl, wideAt_push_of_lt (by omega), Option.some_inj, hnext]
    exact (or_iff_right (Nat.ne_of_gt hpos)).symm

end Spaced
end Constant

/-!
# Reading
-/

namespace Reader

variable {entries all : Array Constant} {c c' : Cursor} {constant : Constant} {remaining : Nat}

def Gives {α : Type} (reader : Reader α) (P : α → Prop) : Prop :=
  ∀ c value c', reader c = .ok (value, c') → P value

namespace Gives

variable {α β : Type} {P : β → Prop}

theorem pure {value : β} (h : P value) : (Pure.pure value : Reader β).Gives P := by
  intro c value' c' hread
  cases hread
  exact h

theorem bind (reader : Reader α) {next : α → Reader β} (h : ∀ value, (next value).Gives P) :
    (reader >>= next).Gives P := by
  intro c value c' hread
  obtain ⟨first, c₁, -, hnext⟩ := bind_eq_ok hread
  exact h first c₁ value c' hnext

end Gives

theorem constantOfTag_gives (index : Nat) (tag : UInt8) :
    (constantOfTag index tag).Gives (· ≠ .unusable) := by
  unfold constantOfTag
  split
  case h_1 => exact .bind _ fun _ => .bind _ fun _ => .bind _ fun _ => .pure nofun
  case h_18 =>
    intro c value c' hread
    cases hread
  -- the others are made of one number or of two
  all_goals
    first
    | exact .bind _ fun _ => .pure nofun
    | exact .bind _ fun _ => .bind _ fun _ => .pure nofun

def nextConstant (entries : Array Constant) : Reader Constant := do
  constantOfTag entries.size (← u8)

theorem nextConstant_gives (entries : Array Constant) :
    (nextConstant entries).Gives (· ≠ .unusable) :=
  .bind _ fun tag => constantOfTag_gives entries.size tag

/-- Constants are read one after another and entered, from one cursor to the other. -/
inductive Entered : Array Constant → Cursor → Array Constant → Cursor → Prop where
  | nothing (entries : Array Constant) (c : Cursor) : Entered entries c entries c
  | narrow {entries all : Array Constant} {c c₁ c' : Cursor} {constant : Constant}
      (hread : nextConstant entries c = .ok (constant, c₁)) (hnarrow : constant.isWide = false)
      (hrest : Entered (entries.push constant) c₁ all c') : Entered entries c all c'
  | wide {entries all : Array Constant} {c c₁ c' : Cursor} {constant : Constant}
      (hread : nextConstant entries c = .ok (constant, c₁)) (hwide : constant.isWide = true)
      (hrest : Entered ((entries.push constant).push .unusable) c₁ all c') :
      Entered entries c all c'

theorem constants_of_narrow (hread : nextConstant entries c = .ok (constant, c'))
    (hnarrow : constant.isWide = false) (remaining : Nat) :
    constants entries (remaining + 1) c = constants (entries.push constant) remaining c' := by
  obtain ⟨tag, c₁, htag, hconstant⟩ := bind_eq_ok hread
  cases remaining with
  | zero =>
      refine (bind_of_ok htag).trans ((bind_of_ok hconstant).trans ?_)
      rw [hnarrow]
      rfl
  | succ remaining =>
      refine (bind_of_ok htag).trans ((bind_of_ok hconstant).trans ?_)
      rw [hnarrow]
      rfl

theorem constants_of_wide (hread : nextConstant entries c = .ok (constant, c'))
    (hwide : constant.isWide = true) (remaining : Nat) :
    constants entries (remaining + 2) c =
      constants ((entries.push constant).push .unusable) remaining c' := by
  obtain ⟨tag, c₁, htag, hconstant⟩ := bind_eq_ok hread
  refine (bind_of_ok htag).trans ((bind_of_ok hconstant).trans ?_)
  rw [if_pos hwide]

theorem constants_of_overrun (hread : nextConstant entries c = .ok (constant, c'))
    (hwide : constant.isWide = true) : constants entries 1 c = .error .wideOverrun := by
  obtain ⟨tag, c₁, htag, hconstant⟩ := bind_eq_ok hread
  refine (bind_of_ok htag).trans ((bind_of_ok hconstant).trans ?_)
  rw [hwide]
  rfl

theorem nextConstant_of_constants (h : constants entries (remaining + 1) c = .ok (all, c')) :
    ∃ constant c₁, nextConstant entries c = .ok (constant, c₁) := by
  have hbind {next : Constant → Reader (Array Constant)}
      (h : (do next (← constantOfTag entries.size (← u8))) c = .ok (all, c')) :
      ∃ constant c₁, nextConstant entries c = .ok (constant, c₁) := by
    obtain ⟨tag, c₁, htag, h⟩ := bind_eq_ok h
    obtain ⟨constant, c₂, hconstant, -⟩ := bind_eq_ok h
    exact ⟨constant, c₂, (bind_of_ok htag).trans hconstant⟩
  cases remaining with
  | zero => exact hbind h
  | succ remaining => exact hbind h

theorem entered_of_constants (h : constants entries remaining c = .ok (all, c')) :
    Entered entries c all c' ∧ all.size = entries.size + remaining := by
  -- the induction follows the reader, which counts down the indices that remain
  induction entries, remaining using constants.induct generalizing c with
  | case1 entries =>
      cases h
      exact ⟨.nothing _ _, rfl⟩
  | case2 entries =>
      obtain ⟨constant, c₁, hread⟩ := nextConstant_of_constants h
      cases hwide : constant.isWide with
      | false =>
          rw [constants_of_narrow hread hwide] at h
          cases h
          exact ⟨.narrow hread hwide (.nothing _ _), Array.size_push constant⟩
      | true =>
          rw [constants_of_overrun hread hwide] at h
          cases h
  | case3 entries remaining ihwide ihnarrow =>
      obtain ⟨constant, c₁, hread⟩ := nextConstant_of_constants h
      cases hwide : constant.isWide with
      | false =>
          rw [constants_of_narrow hread hwide] at h
          obtain ⟨hrest, hsize⟩ := ihnarrow constant h
          rw [Array.size_push] at hsize
          exact ⟨.narrow hread hwide hrest, by omega⟩
      | true =>
          rw [constants_of_wide hread hwide] at h
          obtain ⟨hrest, hsize⟩ := ihwide constant h
          rw [Array.size_push, Array.size_push] at hsize
          exact ⟨.wide hread hwide hrest, by omega⟩

namespace Entered

theorem size_le (h : Entered entries c all c') : entries.size ≤ all.size := by
  induction h with
  | nothing _ _ => exact Nat.le_refl _
  | narrow _ _ _ ih =>
      rw [Array.size_push] at ih
      omega
  | wide _ _ _ ih =>
      rw [Array.size_push, Array.size_push] at ih
      omega

theorem spaced (h : Entered entries c all c') (hspaced : Constant.Spaced entries)
    (hlast : ¬ Constant.WideAt entries (entries.size - 1)) :
    Constant.Spaced all ∧ ¬ Constant.WideAt all (all.size - 1) := by
  induction h with
  | nothing _ _ => exact ⟨hspaced, hlast⟩
  | narrow hread hnarrow _ ih =>
      have husable := nextConstant_gives _ _ _ _ hread
      apply ih (hspaced.push (iff_of_false husable hlast))
      rw [Constant.wideAt_push_last, hnarrow]
      exact Bool.false_ne_true
  | wide hread hwide _ ih =>
      have husable := nextConstant_gives _ _ _ _ hread
      apply ih ((hspaced.push (iff_of_false husable hlast)).push
        (iff_of_true rfl (Constant.wideAt_push_last.mpr hwide)))
      rw [Constant.wideAt_push_last]
      exact Bool.false_ne_true

/-- Where the last index is left for a wide constant, the table overruns. -/
theorem overrun {c₁ : Cursor} (h : Entered entries c all c₁)
    (hread : nextConstant all c₁ = .ok (constant, c')) (hwide : constant.isWide = true)
    (hsize : all.size + 1 = entries.size + remaining) :
    constants entries remaining c = .error .wideOverrun := by
  induction h generalizing remaining with
  | nothing entries c =>
      have hone : remaining = 1 := by omega
      subst hone
      exact constants_of_overrun hread hwide
  | narrow hfirst hnarrow hrest ih =>
      have hle := hrest.size_le
      rw [Array.size_push] at hle
      obtain ⟨rest, rfl⟩ : ∃ rest, remaining = rest + 1 := ⟨remaining - 1, by omega⟩
      rw [constants_of_narrow hfirst hnarrow]
      apply ih hread
      rw [Array.size_push]
      omega
  | wide hfirst hwide' hrest ih =>
      have hle := hrest.size_le
      rw [Array.size_push, Array.size_push] at hle
      obtain ⟨rest, rfl⟩ : ∃ rest, remaining = rest + 2 := ⟨remaining - 2, by omega⟩
      rw [constants_of_wide hfirst hwide']
      apply ih hread
      rw [Array.size_push, Array.size_push]
      omega

end Entered

end Reader

theorem Pool.get_eq_ok_iff (p : Pool) (index : UInt16) :
    (∃ constant, p.get index = .ok constant) ↔
      index.toNat < p.size ∧ p.entries[index.toNat]? ≠ some .unusable := by
  unfold get size
  cases hentry : p.entries[index.toNat]? with
  | none =>
      have hbeyond := Array.getElem?_eq_none_iff.mp hentry
      constructor
      · rintro ⟨constant, hget⟩
        cases hget
      · rintro ⟨hlt, -⟩
        omega
  | some entry =>
      obtain ⟨hlt, -⟩ := Array.getElem?_eq_some_iff.mp hentry
      cases entry with
      | unusable =>
          constructor
          · rintro ⟨constant, hget⟩
            cases hget
          · rintro ⟨-, hne⟩
            exact absurd rfl hne
      | _ => exact ⟨fun _ => ⟨hlt, nofun⟩, fun _ => ⟨_, rfl⟩⟩

namespace Reader

variable {c c₁ : Cursor} {count : UInt16}

theorem pool_eq (hcount : u16 c = .ok (count, c₁)) (hpos : count ≠ 0) :
    pool c = (Pool.mk <$> constants #[.unusable] (count.toNat - 1)) c₁ := by
  refine (bind_of_ok hcount).trans ?_
  rw [if_neg hpos]
  rfl

theorem pool_of_zero (hcount : u16 c = .ok (0, c₁)) : pool c = .error .wideOverrun := by
  refine (bind_of_ok hcount).trans ?_
  rw [if_pos rfl]
  rfl

/-- A table that is read holds the constants that are read one after another, as many entries as
declared.  Nothing is held by index zero and by those behind a wide constant, no wide constant is
the last, and a constant is found at every other index.  Where no index is declared, or the last one
would be of a wide constant, the input is refused. -/
theorem pool_laid_out :
    (∀ (c c' : Cursor) (p : Pool), pool c = .ok (p, c') →
      ∃ count c₁, u16 c = .ok (count, c₁) ∧ Entered #[.unusable] c₁ p.entries c' ∧
        p.size = count.toNat ∧
        (∀ index < p.size, p.entries[index]? = some .unusable ↔
          index = 0 ∨ Constant.WideAt p.entries (index - 1)) ∧
        ¬ Constant.WideAt p.entries (p.size - 1) ∧
        ∀ index : UInt16, (∃ constant, p.get index = .ok constant) ↔
          index.toNat < count.toNat ∧ p.entries[index.toNat]? ≠ some .unusable) ∧
    (∀ c c₁ : Cursor, u16 c = .ok (0, c₁) → pool c = .error .wideOverrun) ∧
    ∀ (c c₁ c₂ c₃ : Cursor) (count : UInt16) (entries : Array Constant) (constant : Constant),
      u16 c = .ok (count, c₁) → Entered #[.unusable] c₁ entries c₂ →
        entries.size + 1 = count.toNat → nextConstant entries c₂ = .ok (constant, c₃) →
          constant.isWide = true → pool c = .error .wideOverrun := by
  refine ⟨?_, ?_, ?_⟩
  · intro c c' p h
    obtain ⟨count, c₁, hcount, -⟩ := bind_eq_ok h
    have hpos : count ≠ 0 := by
      rintro rfl
      rw [pool_of_zero hcount] at h
      cases h
    have hnat : count.toNat ≠ 0 := fun hzero => hpos (UInt16.toNat_inj.mp hzero)
    rw [pool_eq hcount hpos, map_eq_pure_bind] at h
    obtain ⟨entries, c₂, hentries, h⟩ := bind_eq_ok h
    cases h
    obtain ⟨hentered, hsize⟩ := entered_of_constants hentries
    have hcounted : entries.size = count.toNat := by
      have hone : #[Constant.unusable].size = 1 := rfl
      omega
    -- entry zero holds nothing, and it is no wide constant
    obtain ⟨hspaced, hlast⟩ := hentered.spaced .first Constant.not_wideAt_first
    refine ⟨count, c₁, hcount, hentered, hcounted, hspaced.unusable_iff, hlast, ?_⟩
    intro index
    rw [← hcounted]
    exact Pool.get_eq_ok_iff ⟨entries⟩ index
  · intro c c₁ hcount
    exact pool_of_zero hcount
  · intro c c₁ c₂ c₃ count entries constant hcount hentered hsize hread hwide
    have hpos : count ≠ 0 := by
      rintro rfl
      cases hsize
    rw [pool_eq hcount hpos, map_eq_pure_bind]
    apply bind_of_error
    apply hentered.overrun hread hwide
    have hone : #[Constant.unusable].size = 1 := rfl
    omega

namespace WideConstant

/-- A long integer and a class reference behind it, with the given number of declared indices. -/
def table (count : UInt8) : Cursor :=
  ⟨0, [0, count, 5, 0, 0, 0, 0, 0, 0, 0, 1, 7, 0, 4]⟩

/-- Four indices are what the two constants take.  With two declared, the second of the long integer
is not there. -/
theorem table_laid_out :
    (∃ p c', pool (table 4) = .ok (p, c') ∧ p.size = 4 ∧ p.entries[2]? = some .unusable ∧
      ¬ Constant.WideAt p.entries (p.size - 1) ∧ (∃ constant, p.get 3 = .ok constant) ∧
        ¬ ∃ constant, p.get 2 = .ok constant) ∧
    pool (table 0) = .error .wideOverrun ∧ pool (table 2) = .error .wideOverrun := by
  have hread : pool (table 4) =
      .ok (⟨#[.unusable, .long 1, .unusable, .classRef 4]⟩, ⟨14, []⟩) := rfl
  refine ⟨⟨_, _, hread, ?_⟩, ?_, ?_⟩
  · obtain ⟨count, c₁, hcount, -, hsize, hunusable, hlast, hget⟩ :=
      pool_laid_out.1 _ _ _ hread
    have hsecond : (#[.unusable, .long 1, .unusable, .classRef 4] : Array Constant)[2]? =
        some .unusable := (hunusable 2 (by decide)).mpr (.inr ⟨.long 1, rfl, rfl⟩)
    refine ⟨rfl, hsecond, hlast, (hget 3).mpr ⟨?_, nofun⟩, ?_⟩
    · rw [← hsize]
      decide
    · intro hfound
      exact ((hget 2).mp hfound).2 hsecond
  · exact pool_laid_out.2.1 _ ⟨2, _⟩ rfl
  · exact pool_laid_out.2.2 _ _ _ ⟨11, [7, 0, 4]⟩ 2 _ (.long 1) rfl (.nothing _ _) rfl rfl rfl

end WideConstant

end Reader
end Bytecode
