import Bytecode.Instruction.Size
import Bytecode.Proofs.Thread.Confinement

/-!
# Decoding stays in step

Decoding takes as many bytes as the instruction has, so that an instruction that goes on to the next
one leaves its frame at the address of that one.  It fails when the code ends before, and names the
code that stands where no instruction is.
-/

namespace Bytecode

/-!
# Sizes
-/

namespace Opcode

variable {code : UInt8}

theorem isSupported_iff : isSupported code = true ↔ code.toNat ≤ 0xA7 ∨
    0xAA ≤ code.toNat ∧ code.toNat ≤ 0xB9 ∨ 0xBB ≤ code.toNat ∧ code.toNat ≤ 0xC1 ∨
      0xC4 ≤ code.toNat ∧ code.toNat ≤ 0xC8 := by
  simp [isSupported, or_assoc]

theorem isSwitch_iff : isSwitch code = true ↔ code.toNat = 0xAA ∨ code.toNat = 0xAB := by
  simp [isSwitch, ← UInt8.toNat_inj]

theorem isLocalAccess_iff : isLocalAccess code = true ↔
    0x15 ≤ code.toNat ∧ code.toNat ≤ 0x19 ∨ 0x36 ≤ code.toNat ∧ code.toNat ≤ 0x3A := by
  simp [isLocalAccess]

theorem size?_unsupported (h : isSupported code = false) (modified : UInt8) :
    size? code modified = none := by
  simp [size?, h]

theorem size?_eq (hsupported : isSupported code = true) (hswitch : ¬ isSwitch code = true)
    (modified : UInt8) :
    size? code modified =
      if code.toNat = 0x10 ∨ code.toNat = 0x12 ∨ code.toNat = 0xBC ∨
          0x15 ≤ code.toNat ∧ code.toNat ≤ 0x19 ∨ 0x36 ≤ code.toNat ∧ code.toNat ≤ 0x3A then some 2
      else if code.toNat = 0x11 ∨ code.toNat = 0x13 ∨ code.toNat = 0x14 ∨ code.toNat = 0x84 then
        some 3
      else if 0x99 ≤ code.toNat ∧ code.toNat ≤ 0xA7 then some 3
      else if 0xB2 ≤ code.toNat ∧ code.toNat ≤ 0xB8 then some 3
      else if code.toNat = 0xBB ∨ code.toNat = 0xBD ∨ code.toNat = 0xC0 ∨ code.toNat = 0xC1 ∨
          code.toNat = 0xC6 ∨ code.toNat = 0xC7 then some 3
      else if code.toNat = 0xC5 then some 4
      else if code.toNat = 0xB9 ∨ code.toNat = 0xC8 then some 5
      else if code.toNat = 0xC4 then
        if isLocalAccess modified then some 4 else if modified = 0x84 then some 6 else none
      else some 1 := by
  simp [size?, isLocalAccess, hsupported, hswitch, or_assoc]

theorem size?_at {n size : Nat} (h : code.toNat = n)
    (hsize : ∀ modified, size? (UInt8.ofNat n) modified = some size) (modified : UInt8) :
    size? code modified = some size := by
  rw [← hsize modified, ← h, UInt8.ofNat_toNat]

theorem size?_one (h : 0x1A ≤ code.toNat ∧ code.toNat ≤ 0x35 ∨
    0x3B ≤ code.toNat ∧ code.toNat ≤ 0x83 ∨ 0x85 ≤ code.toNat ∧ code.toNat ≤ 0x93 ∨
      0xAC ≤ code.toNat ∧ code.toNat ≤ 0xB0) (modified : UInt8) :
    size? code modified = some 1 := by
  rw [size?_eq (isSupported_iff.mpr (by omega)) (by rw [isSwitch_iff]; omega)]
  iterate 8 rw [if_neg (by omega)]

theorem size?_two (h : 0x15 ≤ code.toNat ∧ code.toNat ≤ 0x19 ∨
    0x36 ≤ code.toNat ∧ code.toNat ≤ 0x3A) (modified : UInt8) :
    size? code modified = some 2 := by
  rw [size?_eq (isSupported_iff.mpr (by omega)) (by rw [isSwitch_iff]; omega)]
  exact if_pos (by omega)

theorem size?_three (h : 0x99 ≤ code.toNat ∧ code.toNat ≤ 0xA7) (modified : UInt8) :
    size? code modified = some 3 := by
  rw [size?_eq (isSupported_iff.mpr (by omega)) (by rw [isSwitch_iff]; omega)]
  iterate 2 rw [if_neg (by omega)]
  exact if_pos h

theorem size?_wide (h : code.toNat = 0xC4) (modified : UInt8) :
    size? code modified =
      if isLocalAccess modified then some 4 else if modified = 0x84 then some 6 else none := by
  rw [size?_eq (isSupported_iff.mpr (by omega)) (by rw [isSwitch_iff]; omega)]
  iterate 7 rw [if_neg (by omega)]
  exact if_pos h

end Opcode

/-!
# Bytes taken by decoders
-/

namespace Decoder

variable {α β : Type}

/-- The decoder takes the given number of bytes, whatever they are. -/
def Takes (x : Decoder α) (count : Nat) : Prop :=
  ∀ (code : Array UInt8) (address : Nat), address ≤ code.size →
    if address + count ≤ code.size then ∃ value, x code address = .ok (value, address + count)
    else x code address = .error .codeEnds

/-- The decoder takes the given number of bytes or fails, and fails if there are fewer. -/
structure Spans (x : Decoder α) (count : Nat) : Prop where
  ends : ∀ {code : Array UInt8} {address : Nat}, address ≤ code.size →
    code.size < address + count → x code address = .error .codeEnds
  next : ∀ {code : Array UInt8} {address next : Nat} {value : α}, address ≤ code.size →
    x code address = .ok (value, next) → next = address + count

namespace Takes

theorem pure (value : α) : Takes (pure value) 0 := by
  intro code address h
  rw [if_pos (show address + 0 ≤ code.size from h)]
  exact ⟨value, rfl⟩

theorem bind {x : Decoder α} {f : α → Decoder β} {m n : Nat} (hx : Takes x m)
    (hf : ∀ a, Takes (f a) n) : Takes (x >>= f) (m + n) := by
  intro code address h
  have hfirst := hx code address h
  have hbind : (x >>= f) code address =
      Except.bind (x code address) fun p => f p.1 code p.2 := rfl
  rw [hbind]
  split at hfirst
  next hlong =>
      obtain ⟨a, ha⟩ := hfirst
      have hsecond := hf a code (address + m) hlong
      rw [ha, ← Nat.add_assoc]
      exact hsecond
  next hshort =>
      rw [hfirst, if_neg (by omega)]
      rfl

theorem map {x : Decoder α} {n : Nat} (f : α → β) (hx : Takes x n) :
    Takes (do return f (← x)) n :=
  hx.bind fun a => pure (f a)

end Takes

namespace Spans

theorem pure (value : α) : Spans (pure value) 0 := by
  constructor
  · intro code address h hshort
    omega
  · intro code address next value _ h
    cases h
    rfl

theorem throw (e : DecodeError) : Spans (throw e : Decoder α) 0 := by
  constructor
  · intro code address h hshort
    omega
  · intro code address next value _ h
    cases h

theorem ite {c : Prop} [Decidable c] {x y : Decoder α} {n : Nat} (hx : Spans x n)
    (hy : Spans y n) : Spans (if c then x else y) n := by
  split
  · exact hx
  · exact hy

end Spans

theorem Takes.spans {x : Decoder α} {f : α → Decoder β} {m n : Nat} (hx : Takes x m)
    (hf : ∀ a, Spans (f a) n) : Spans (x >>= f) (m + n) := by
  have hbind (code : Array UInt8) (address : Nat) : (x >>= f) code address =
      Except.bind (x code address) fun p => f p.1 code p.2 := rfl
  constructor
  · intro code address h hshort
    have hfirst := hx code address h
    rw [hbind]
    split at hfirst
    next hlong =>
        obtain ⟨a, ha⟩ := hfirst
        rw [ha]
        exact (hf a).ends hlong (by omega)
    next =>
        rw [hfirst]
        rfl
  · intro code address next value h heq
    have hfirst := hx code address h
    rw [hbind] at heq
    split at hfirst
    next hlong =>
        obtain ⟨a, ha⟩ := hfirst
        rw [ha] at heq
        rw [(hf a).next hlong heq, Nat.add_assoc]
    next =>
        rw [hfirst] at heq
        cases heq

theorem Takes.spans_map {x : Decoder α} {n : Nat} (hx : Takes x n) (f : α → β) :
    Spans (do return f (← x)) n :=
  hx.spans fun a => .pure (f a)

theorem u8_apply (code : Array UInt8) (address : Nat) :
    u8 code address =
      match code[address]? with
      | some byte => .ok (byte, address + 1)
      | none => .error .codeEnds := by
  have hget (f : Nat → Decoder UInt8) : (get >>= f) code address = f address code address := rfl
  have hread (f : Array UInt8 → Decoder UInt8) :
      (read >>= f) code address = f code code address := rfl
  unfold u8
  rw [hget, hread]
  cases code[address]? <;> rfl

theorem u8_takes : Takes u8 1 := by
  intro code address _
  rw [u8_apply]
  split
  next h =>
      rw [Array.getElem?_eq_getElem h]
      exact ⟨_, rfl⟩
  next h => rw [Array.getElem?_eq_none (by omega)]

theorem u16_takes : Takes u16 2 :=
  u8_takes.bind fun _ => u8_takes.map _

theorem i8_takes : Takes i8 1 :=
  u8_takes.map _

theorem i16_takes : Takes i16 2 :=
  u16_takes.map _

theorem i32_takes : Takes i32 4 :=
  u16_takes.bind fun _ => u16_takes.map _

/-!
# Values of decoders
-/

def Yields (Q : α → Prop) (x : Decoder α) : Prop :=
  ∀ ⦃code address value next⦄, x code address = .ok (value, next) → Q value

namespace Yields

variable {Q : α → Prop}

theorem pure {value : α} (h : Q value) : Yields Q (pure value) := by
  intro code address _ next heq
  cases heq
  exact h

theorem throw (e : DecodeError) : Yields Q (throw e) :=
  nofun

theorem bind {x : Decoder β} {f : β → Decoder α} (hf : ∀ b, Yields Q (f b)) :
    Yields Q (x >>= f) := by
  intro code address value next h
  change Except.bind (x code address) (fun p => f p.1 code p.2) = _ at h
  cases hx : x code address with
  | error e =>
      rw [hx] at h
      cases h
  | ok p =>
      rw [hx] at h
      exact hf p.1 h

theorem ite {c : Prop} [Decidable c] {x y : Decoder α} (hx : Yields Q x) (hy : Yields Q y) :
    Yields Q (if c then x else y) := by
  split
  · exact hx
  · exact hy

end Yields

/-!
# Instructions by their codes
-/

inductive Laid (opcode : UInt8) (x : Decoder Instruction) : Prop where
  | unsupported (h : Opcode.isSupported opcode = false) (hx : x = throw (.unsupported opcode))
  | switch (h : Opcode.isSwitch opcode = true)
  | wide (h : opcode.toNat = 0xC4) (hx : x = Decoder.wide)
  /-- With its code the instruction has one byte more than its operands. -/
  | sized (count : Nat) (hsize : ∀ modified, Opcode.size? opcode modified = some (count + 1))
      (hx : x.Spans count)

section

variable {opcode : UInt8}

theorem Laid.single (i : Instruction)
    (hsize : ∀ modified, Opcode.size? opcode modified = some 1) : Laid opcode (pure i) :=
  .sized 0 hsize (.pure i)

theorem Laid.ite {c : Prop} [Decidable c] {x y : Decoder Instruction} (hx : c → Laid opcode x)
    (hy : ¬ c → Laid opcode y) : Laid opcode (if c then x else y) := by
  by_cases h : c
  · rw [if_pos h]
    exact hx h
  · rw [if_neg h]
    exact hy h

theorem Laid.reserved (h : ¬ (opcode.toNat ≤ 0xA7 ∨ 0xAA ≤ opcode.toNat ∧ opcode.toNat ≤ 0xB9 ∨
    0xBB ≤ opcode.toNat ∧ opcode.toNat ≤ 0xC1 ∨ 0xC4 ≤ opcode.toNat ∧ opcode.toNat ≤ 0xC8)) :
    Laid opcode (throw (.unsupported opcode)) :=
  .unsupported (Bool.eq_false_iff.mpr fun hsupported => h (Opcode.isSupported_iff.mp hsupported))
    rfl

theorem constant_laid (h : opcode.toNat ≤ 0x14) : Laid opcode (constant opcode) := by
  unfold constant
  split
  all_goals try exact .single _ (Opcode.size?_at (by assumption) fun _ => rfl)
  · exact .sized 1 (Opcode.size?_at (by assumption) fun _ => rfl) (i8_takes.spans_map _)
  · exact .sized 2 (Opcode.size?_at (by assumption) fun _ => rfl) (i16_takes.spans_map _)
  · exact .sized 1 (Opcode.size?_at (by assumption) fun _ => rfl) (u8_takes.spans_map _)
  · exact .sized 2 (Opcode.size?_at (by assumption) fun _ => rfl) (u16_takes.spans_map _)
  · exact .sized 2 (Opcode.size?_at (by assumption) fun _ => rfl) (u16_takes.spans_map _)
  · simp only [imp_false] at *
    omega

theorem interface_spans : Spans (do
    let index ← u16
    let _ ← u8
    let zero ← u8
    if zero ≠ 0 then throw .missingZeroByte
    return .invokeInterface index : Decoder Instruction) 4 :=
  u16_takes.spans fun _ => u8_takes.spans fun _ => u8_takes.spans fun _ =>
    .ite (.throw _) (.pure _)

theorem newArray_spans : Spans (do
    let elementCode ← u8
    match Element.ofCode elementCode with
    | .ok element => return .newArray element
    | .error _ => throw (.badElementCode elementCode) : Decoder Instruction) 1 := by
  refine u8_takes.spans (n := 0) fun elementCode => ?_
  split
  · exact .pure _
  · exact .throw _

theorem control_laid (h : 0x93 < opcode.toNat) : Laid opcode (control opcode) := by
  unfold control
  dsimp only
  refine .ite (fun _ => .sized 2 (Opcode.size?_three (by omega)) (i16_takes.spans_map _))
    fun _ => ?_
  refine .ite (fun _ => .sized 2 (Opcode.size?_three (by omega)) (i16_takes.spans_map _))
    fun _ => ?_
  refine .ite (fun _ => .single _ (Opcode.size?_one (by omega))) fun _ => ?_
  split
  all_goals try exact .single _ (Opcode.size?_at (by assumption) fun _ => rfl)
  all_goals try
    exact .sized 2 (Opcode.size?_at (by assumption) fun _ => rfl) (i16_takes.spans_map _)
  all_goals try
    exact .sized 2 (Opcode.size?_at (by assumption) fun _ => rfl) (u16_takes.spans_map _)
  · exact .switch (Opcode.isSwitch_iff.mpr (by omega))
  · exact .switch (Opcode.isSwitch_iff.mpr (by omega))
  · exact .sized 4 (Opcode.size?_at (by assumption) fun _ => rfl) interface_spans
  · exact .sized 1 (Opcode.size?_at (by assumption) fun _ => rfl) newArray_spans
  · exact .wide (by assumption) rfl
  · exact .sized 3 (Opcode.size?_at (by assumption) fun _ => rfl)
      (u16_takes.spans fun _ => u8_takes.spans_map _)
  · exact .sized 4 (Opcode.size?_at (by assumption) fun _ => rfl) (i32_takes.spans_map _)
  · simp only [imp_false] at *
    exact .reserved (by omega)

theorem instruction_laid (opcode : UInt8) : Laid opcode (instruction opcode) := by
  unfold instruction
  dsimp only
  refine .ite constant_laid fun _ => ?_
  refine .ite (fun _ => .sized 1 (Opcode.size?_two (by omega)) (u8_takes.spans_map _)) fun _ => ?_
  refine .ite (fun _ => .single _ (Opcode.size?_one (by omega))) fun _ => ?_
  refine .ite (fun _ => .single _ (Opcode.size?_one (by omega))) fun _ => ?_
  refine .ite (fun _ => .sized 1 (Opcode.size?_two (by omega)) (u8_takes.spans_map _)) fun _ => ?_
  refine .ite (fun _ => .single _ (Opcode.size?_one (by omega))) fun _ => ?_
  refine .ite (fun _ => .single _ (Opcode.size?_one (by omega))) fun _ => ?_
  refine .ite (fun _ => .single _ (Opcode.size?_one (by omega))) fun _ => ?_
  refine .ite (fun _ => .single _ (Opcode.size?_one (by omega))) fun _ => ?_
  refine .ite (fun h => .sized 2 (Opcode.size?_at h fun _ => rfl)
    (u8_takes.spans fun _ => i8_takes.spans_map _)) fun _ => ?_
  refine .ite (fun _ => .single _ (Opcode.size?_one (by omega))) fun _ => ?_
  exact control_laid (by omega)

end

/-!
# Widened instructions
-/

def widened (modified : UInt8) : Decoder Instruction := do
  let index := (← u16).toNat
  let code := modified.toNat
  if 0x15 ≤ code ∧ code ≤ 0x19 then
    return .load (kindAt (code - 0x15)) index
  else if 0x36 ≤ code ∧ code ≤ 0x3A then
    return .store (kindAt (code - 0x36)) index
  else if code = 0x84 then
    return .increment index (← i16)
  else
    throw (.unsupported modified)

theorem wide_eq : wide = u8 >>= widened := rfl

theorem wide_apply (code : Array UInt8) (address : Nat) :
    wide code address =
      match code[address]? with
      | some modified => widened modified code (address + 1)
      | none => .error .codeEnds := by
  rw [wide_eq]
  show Except.bind (u8 code address) _ = _
  rw [u8_apply]
  cases code[address]? <;> rfl

variable {modified : UInt8}

theorem widened_access (h : Opcode.isLocalAccess modified = true) : Spans (widened modified) 2 := by
  unfold widened
  refine u16_takes.spans (n := 0) fun index => ?_
  rw [Opcode.isLocalAccess_iff] at h
  dsimp only
  split
  next => exact .pure _
  next =>
    split
    next => exact .pure _
    next => omega

theorem widened_increment : Spans (widened 0x84) 4 :=
  u16_takes.spans fun _ => i16_takes.spans_map _

theorem widened_other (h : Opcode.isLocalAccess modified = false) (hinc : modified ≠ 0x84) :
    widened modified = u16 >>= fun _ => throw (.unsupported modified) := by
  have hcode : modified.toNat ≠ 0x84 := fun heq => hinc (UInt8.toNat_inj.mp heq)
  rw [← Bool.not_eq_true, Opcode.isLocalAccess_iff] at h
  unfold widened
  dsimp only
  congr 1
  funext index
  rw [if_neg (by omega), if_neg (by omega), if_neg hcode]

theorem widened_spans (modified : UInt8) :
    Spans (widened modified) ((Opcode.size? 0xC4 modified).getD 4 - 2) := by
  rw [Opcode.size?_wide rfl]
  split
  next h => exact widened_access h
  next h =>
    split
    next hinc =>
        subst hinc
        exact widened_increment
    next hinc =>
        rw [widened_other (Bool.eq_false_iff.mpr h) hinc]
        exact u16_takes.spans fun _ => .throw _

theorem widened_sized :
    Yields (fun _ => ∃ n, 2 ≤ n ∧ Opcode.size? 0xC4 modified = some n) (widened modified) := by
  rw [Opcode.size?_wide rfl]
  intro code address i next h
  split
  next => exact ⟨4, by decide, rfl⟩
  next haccess =>
    split
    next => exact ⟨6, by decide, rfl⟩
    next hinc =>
        rw [widened_other (Bool.eq_false_iff.mpr haccess) hinc] at h
        have hnever : Yields (fun _ => False)
            (u16 >>= fun _ => throw (.unsupported modified) : Decoder Instruction) :=
          .bind fun _ => .throw _
        exact (hnever h).elim

/-!
# Switches
-/

theorem tableSwitch_branches : Yields (fun i => ∀ s, i.Branches s) tableSwitch :=
  .bind fun _ => .bind fun default => .bind fun low => .bind fun high => .bind fun offsets =>
    .pure (.table default low high offsets)

theorem lookupSwitch_branches : Yields (fun i => ∀ s, i.Branches s) lookupSwitch :=
  .bind fun _ => .bind fun default => .bind fun _ => .ite (.throw _)
    (.bind fun table => .pure (.lookup default table))

theorem switch_branches {opcode : UInt8} (h : Opcode.isSwitch opcode = true) :
    Yields (fun i => ∀ s, i.Branches s) (instruction opcode) := by
  have hcases : opcode = 0xAA ∨ opcode = 0xAB := by
    simpa [Opcode.isSwitch] using h
  rcases hcases with rfl | rfl
  · exact tableSwitch_branches
  · exact lookupSwitch_branches

end Decoder

/-!
# Decoding at an address
-/

namespace Instruction

variable {code : Array UInt8} {pc : Nat} {opcode modified : UInt8}

/-- What is decoded ends where its size says. -/
theorem decode_next (hcode : code[pc]? = some opcode) (hswitch : Opcode.isSwitch opcode = false)
    {i : Instruction} {next : Nat} (h : decode code opcode (pc + 1) = .ok (i, next)) :
    ∃ n, Opcode.size? opcode (code.getD (pc + 1) 0) = some n ∧ next = pc + n := by
  have hstart : pc + 1 ≤ code.size := (Array.getElem?_eq_some_iff.mp hcode).1
  change Decoder.instruction opcode code (pc + 1) = _ at h
  cases Decoder.instruction_laid opcode with
  | unsupported _ hx =>
      rw [hx] at h
      cases h
  | switch hyes =>
      rw [hswitch] at hyes
      cases hyes
  | sized count hsize hx =>
      refine ⟨count + 1, hsize _, ?_⟩
      rw [hx.next hstart h]
      omega
  | wide hopcode hx =>
      rw [hx, Decoder.wide_apply] at h
      split at h
      next modified hmodified =>
          have hbyte : code.getD (pc + 1) 0 = modified := by
            rw [Array.getD_eq_getD_getElem?, hmodified, Option.getD_some]
          have hend : pc + 2 ≤ code.size := (Array.getElem?_eq_some_iff.mp hmodified).1
          obtain ⟨n, hn, hsize⟩ := Decoder.widened_sized h
          have hnext := (Decoder.widened_spans modified).next hend h
          rw [hsize, Option.getD_some] at hnext
          rw [hbyte, show opcode = 0xC4 from UInt8.toNat_inj.mp hopcode]
          exact ⟨n, hsize, by omega⟩
      next => cases h

/-- An instruction whose operands are not all there, is not decoded. -/
theorem decode_short (hcode : code[pc]? = some opcode)
    (hsupported : Opcode.isSupported opcode = true) (hswitch : Opcode.isSwitch opcode = false)
    (hshort : code.size < pc + (Opcode.size? opcode (code.getD (pc + 1) 0)).getD 4) :
    decode code opcode (pc + 1) = .error .codeEnds := by
  have hstart : pc + 1 ≤ code.size := (Array.getElem?_eq_some_iff.mp hcode).1
  change Decoder.instruction opcode code (pc + 1) = _
  cases Decoder.instruction_laid opcode with
  | unsupported hnot _ =>
      rw [hsupported] at hnot
      cases hnot
  | switch hyes =>
      rw [hswitch] at hyes
      cases hyes
  | sized count hsize hx =>
      rw [hsize, Option.getD_some] at hshort
      exact hx.ends hstart (by omega)
  | wide hopcode hx =>
      rw [hx, Decoder.wide_apply]
      cases hmodified : code[pc + 1]? with
      | none => rfl
      | some modified =>
          have hend : pc + 2 ≤ code.size := (Array.getElem?_eq_some_iff.mp hmodified).1
          rw [Array.getD_eq_getD_getElem?, hmodified, Option.getD_some,
            show opcode = 0xC4 from UInt8.toNat_inj.mp hopcode] at hshort
          exact (Decoder.widened_spans modified).ends hend (by omega)

theorem decode_unsupported (h : Opcode.isSupported opcode = false) (address : Nat) :
    decode code opcode address = .error (.unsupported opcode) := by
  change Decoder.instruction opcode code address = _
  cases Decoder.instruction_laid opcode with
  | unsupported _ hx =>
      rw [hx]
      rfl
  | switch hswitch =>
      rw [← Bool.not_eq_true, Opcode.isSupported_iff] at h
      have hopcode := Opcode.isSwitch_iff.mp hswitch
      omega
  | sized count hsize _ => cases (Opcode.size?_unsupported h 0).symm.trans (hsize 0)
  | wide hopcode _ =>
      rw [← Bool.not_eq_true, Opcode.isSupported_iff] at h
      omega

theorem decode_wide_unsupported (hmodified : code[pc + 1]? = some modified)
    (hindex : pc + 4 ≤ code.size) (haccess : Opcode.isLocalAccess modified = false)
    (hinc : modified ≠ 0x84) : decode code 0xC4 (pc + 1) = .error (.unsupported modified) := by
  have hread := Decoder.u16_takes code (pc + 2) (by omega)
  rw [if_pos hindex] at hread
  obtain ⟨index, hread⟩ := hread
  change Decoder.wide code (pc + 1) = _
  rw [Decoder.wide_apply, hmodified]
  show Decoder.widened modified code (pc + 2) = _
  rw [Decoder.widened_other haccess hinc]
  show Except.bind (Decoder.u16 code (pc + 2)) _ = _
  rw [hread]
  rfl

end Instruction

/-!
# Steps of threads
-/

namespace Thread

section

variable {host : Host} {load : Loader} {base : Nat} {m : Machine} {f : Frame} {rest : List Frame}
  {r : Option Value} {opcode : UInt8}

/-- Whatever is on the stack of the innermost frame, the step fails; but for traces in the log, only
the current address has been set. -/
def FailsWith (host : Host) (load : Loader) (base : Nat) (m : Machine) (f : Frame)
    (rest : List Frame) (r : Option Value) (fault : Fault) : Prop :=
  ∀ stack, ∃ log, step host load base ⟨m, { f with stack } :: rest, r⟩ =
    .error (.fault fault) ⟨{ m with log }, { f with stack, current := f.pc } :: rest, r⟩

theorem failsWith_of_undecoded {e : DecodeError} (hcode : f.method.code[f.pc]? = some opcode)
    (hdecode : Instruction.decode f.method.code opcode (f.pc + 1) = .error e) :
    FailsWith host load base m f rest r (e.fault f.method) := by
  intro stack
  have hfails : ∃ log, Exec.step load host.tracing ⟨{ f with stack }, m⟩ =
      .error (.fault (e.fault f.method)) ⟨{ f with stack, current := f.pc }, { m with log }⟩ :=
    Exec.step_of_undecoded hcode hdecode
  obtain ⟨log, hstep⟩ := hfails
  refine ⟨log, ?_⟩
  rw [step_cons, hstep]

/-- An instruction that is executed, and neither returns nor throws nor branches, leaves its frame
at the address that its size says.  One whose operands run past the end of the code fails whatever
the stack is, and so do codes that stand for no instruction, which are named. -/
theorem decoding_in_step (host : Host) (load : Loader) (base : Nat) (m : Machine) (f : Frame)
    (rest : List Frame) (r : Option Value) (hcode : f.method.code[f.pc]? = some opcode) :
    (∀ {i : Instruction} {behind : Nat} {effect : Effect} {a : Activation},
      f.Next i behind → i.GoesOn → ¬ i.Branches f.stack →
        Exec.step load host.tracing ⟨f, m⟩ = .ok effect a →
        ∃ n inner f', Opcode.size? opcode (f.method.code.getD (f.pc + 1) 0) = some n ∧
          inner.length ≤ 1 ∧
          (lastState (step host load base ⟨m, f :: rest, r⟩)).frames = inner ++ f' :: rest ∧
            f'.method = f.method ∧ f'.current = f.pc ∧ f'.pc = f.pc + n) ∧
    (Opcode.isSupported opcode = true → Opcode.isSwitch opcode = false →
      f.method.code.size <
          f.pc + (Opcode.size? opcode (f.method.code.getD (f.pc + 1) 0)).getD 4 →
        FailsWith host load base m f rest r (.malformed (.codeEnds f.method.label))) ∧
    (Opcode.isSupported opcode = false →
      FailsWith host load base m f rest r (.unsupported opcode (Opcode.mnemonic opcode))) ∧
    ∀ {modified : UInt8}, opcode = 0xC4 → f.method.code[f.pc + 1]? = some modified →
      f.pc + 4 ≤ f.method.code.size → Opcode.isLocalAccess modified = false → modified ≠ 0x84 →
        FailsWith host load base m f rest r
          (.unsupported modified (Opcode.mnemonic modified)) := by
  refine ⟨?_, ?_, ?_, ?_⟩
  · intro i behind effect a hnext hgoes hnot hstep
    obtain ⟨found, hfound, hdecode⟩ := id hnext
    cases hcode.symm.trans hfound
    -- a switch always branches
    have hswitch : Opcode.isSwitch opcode = false := by
      rw [Bool.eq_false_iff]
      exact fun hswitch => hnot (Decoder.switch_branches hswitch hdecode f.stack)
    obtain ⟨n, hsize, rfl⟩ := Instruction.decode_next hcode hswitch hdecode
    obtain ⟨log, hexecute⟩ := Exec.step_eq_execute hnext load host.tracing m
    have hasks := i.execute_mayAsk load ((hexecute f.stack).symm.trans hstep)
    -- the frame is left, perhaps below that of a call
    obtain ⟨inner, stack, hinner, hframes⟩ :=
      step_keeps_frame base rest r hstep (hgoes.next_or_call hasks)
    obtain ⟨hmethod, hcurrent, hpc⟩ := Exec.step_stays hnext hnot hstep
    exact ⟨n, inner, { a.frame with stack }, hsize, hinner, hframes, hmethod, hcurrent, hpc⟩
  · intro hsupported hswitch hshort
    exact failsWith_of_undecoded hcode
      (Instruction.decode_short hcode hsupported hswitch hshort)
  · intro hsupported
    exact failsWith_of_undecoded hcode (Instruction.decode_unsupported hsupported _)
  · rintro modified rfl hmodified hindex haccess hinc
    exact failsWith_of_undecoded hcode
      (Instruction.decode_wide_unsupported hmodified hindex haccess hinc)

end

namespace Straight

/-!
A method with a code of each kind.
-/

/-- `sipush 300; monitorenter; wide ret 0`, and the beginning of another widened instruction. -/
def method : Method :=
  ⟨"A", "run", "(J)V", .ofWord 0x0009, ⟨[.long], .void⟩, 2, 2,
    #[0x11, 1, 44, 0xC2, 0xC4, 0xA9, 0, 0, 0xC4], [], rfl⟩

def frame (pc : Nat) : Frame :=
  { Frame.enter method (.mk ⟨"A", .ofWord 0x0021, [], [], [method]⟩ none []) ⟨"A", ⟨#[]⟩⟩ [] with
    pc }

def host : Host :=
  ⟨ClassPath.ofRows [], [], 8, false⟩

/-- The first instruction steps over its operand, and the others are refused. -/
theorem codes_in_step :
    (∃ inner f', inner.length ≤ 1 ∧
      (lastState (step host (host.load 1) 0 ⟨.empty, [frame 0], none⟩)).frames = inner ++ [f'] ∧
        f'.pc = 3) ∧
    FailsWith host (host.load 1) 0 .empty (frame 3) [] none
      (.unsupported 0xC2 "monitorenter") ∧
    FailsWith host (host.load 1) 0 .empty (frame 4) [] none (.unsupported 0xA9 "ret") ∧
    FailsWith host (host.load 1) 0 .empty (frame 8) [] none
      (.malformed (.codeEnds "A.run(J)V")) := by
  have hmonitor : Opcode.mnemonic 0xC2 = "monitorenter" := by decide +kernel
  have hret : Opcode.mnemonic 0xA9 = "ret" := by decide +kernel
  have hnext : (frame 0).Next (.push (.int 300)) 3 := ⟨0x11, rfl, rfl⟩
  have hgoes : (Instruction.push (.int 300)).GoesOn := ⟨nofun, nofun, nofun⟩
  have hnot : ¬ (Instruction.push (.int 300)).Branches (frame 0).stack := nofun
  have hstep : Exec.step (host.load 1) host.tracing ⟨frame 0, .empty⟩ =
      .ok .next ⟨{ frame 0 with stack := ⟨[.int 300]⟩, pc := 3 }, .empty⟩ := rfl
  obtain ⟨n, inner, f', hsize, hinner, hframes, -, -, hpc⟩ :=
    (decoding_in_step host (host.load 1) 0 .empty (frame 0) [] none rfl).1 hnext hgoes hnot hstep
  cases hsize
  refine ⟨⟨inner, f', hinner, hframes, hpc⟩, ?_, ?_, ?_⟩
  · rw [← hmonitor]
    exact (decoding_in_step host _ 0 .empty (frame 3) [] none rfl).2.2.1 rfl
  · rw [← hret]
    exact (decoding_in_step host _ 0 .empty (frame 4) [] none rfl).2.2.2 rfl rfl (by decide) rfl
      (by decide)
  · exact (decoding_in_step host _ 0 .empty (frame 8) [] none rfl).2.1 rfl rfl (by decide)

end Straight

end Thread
end Bytecode
