import Bytecode.ClassFile.Layout
import Bytecode.ClassFile.Reader
import Bytecode.Proofs.Text.ModifiedUtf8

/-!
# Class files read back

The reader returns what a layout stands for.  Every part of a layout is read from its bytes in
front of an arbitrary tail, and leaves that tail.
-/

namespace Bytecode

open BigEndian

/-!
# Readers in front of a tail
-/

/-- The reader takes exactly the given bytes and returns `value`, whatever stands behind them. -/
def Reader.Reads (reader : Reader α) (bytes : List UInt8) (value : α) : Prop :=
  ∀ offset rest, reader ⟨offset, bytes ++ rest⟩ = .ok (value, ⟨offset + bytes.length, rest⟩)

namespace Reader
namespace Reads

theorem pure (value : α) : (Pure.pure value : Reader α).Reads [] value := by
  intro offset rest
  rfl

theorem bind {reader : Reader α} {next : α → Reader β} {bytes bytes' : List UInt8} {value : α}
    {result : β} (h : reader.Reads bytes value) (h' : (next value).Reads bytes' result) :
    (reader >>= next).Reads (bytes ++ bytes') result := by
  intro offset rest
  have hfirst := h offset (bytes' ++ rest)
  have hnext := h' (offset + bytes.length) rest
  show Except.bind (reader ⟨offset, bytes ++ bytes' ++ rest⟩) _ = _
  rw [List.append_assoc, hfirst, List.length_append, ← Nat.add_assoc]
  exact hnext

theorem map {reader : Reader α} {bytes : List UInt8} {value : α} (h : reader.Reads bytes value)
    (f : α → β) : (reader >>= fun a => Pure.pure (f a)).Reads bytes (f value) := by
  rw [← List.append_nil bytes]
  apply h.bind
  exact Reads.pure (f value)

theorem bind_inner {reader : Reader α} {step : α → Reader β} {next : β → Reader γ}
    {bytes bytes' : List UInt8} {value : β} {result : γ} (h : (reader >>= step).Reads bytes value)
    (h' : (next value).Reads bytes' result) :
    (reader >>= fun a => step a >>= next).Reads (bytes ++ bytes') result := by
  rw [← bind_assoc]
  exact h.bind h'

theorem lift {outcome : Except Malformed α} {value : α} (h : outcome = .ok value) :
    (liftM outcome : Reader α).Reads [] value := by
  intro offset rest
  subst h
  rfl

theorem lift_bind {outcome : Except Malformed α} {next : α → Reader β} {bytes : List UInt8}
    {value : α} {result : β} (h : outcome = .ok value) (h' : (next value).Reads bytes result) :
    (liftM outcome >>= next).Reads bytes result := by
  rw [← List.nil_append bytes]
  exact (Reads.lift h).bind h'

theorem of_not {condition : Prop} [Decidable condition] {first second : Reader α}
    {bytes : List UInt8} {value : α} (h : ¬condition) (h' : second.Reads bytes value) :
    (if condition then first else second).Reads bytes value := by
  rw [if_neg h]
  exact h'

theorem within {reader : Reader α} {bytes : List UInt8} {value : α} (h : reader.Reads bytes value) :
    (Reader.within bytes reader).Reads [] value := by
  have hrun := h 0 []
  rw [List.append_nil] at hrun
  intro offset rest
  unfold Reader.within
  show Except.bind (Except.bind (reader ⟨0, bytes⟩) _) _ = _
  rw [hrun]
  rfl

theorem times {item : Reader β} {bytes : α → List UInt8} {content? : α → Option β}
    {items : List α}
    (h : ∀ a ∈ items, ∃ b, content? a = some b ∧ item.Reads (bytes a) b) :
    ∃ contents, items.mapM content? = some contents ∧
      (Reader.times item items.length).Reads (items.flatMap bytes) contents := by
  induction items with
  | nil =>
      refine ⟨[], rfl, ?_⟩
      exact Reads.pure []
  | cons a items ih =>
      obtain ⟨b, hcontent, hread⟩ := h a (by simp)
      obtain ⟨contents, hcontents, hreads⟩ := ih fun a' ha' => h a' (by simp [ha'])
      refine ⟨b :: contents, ?_, ?_⟩
      · simp [hcontent, hcontents]
      · rw [List.flatMap_cons, List.length_cons]
        exact hread.bind (hreads.map (b :: ·))

end Reads

/-!
# Numbers and blocks
-/

theorem join_halves {n k : Nat} (h : n < 2 ^ k * 2 ^ k) :
    (((n >>> k) % 2 ^ k) <<< k) % (2 ^ k * 2 ^ k) ||| n % 2 ^ k = n := by
  have hhigh : n >>> k < 2 ^ k := by
    rw [Nat.shiftRight_eq_div_pow]
    exact Nat.div_lt_of_lt_mul h
  have hshift : (n >>> k) <<< k < 2 ^ k * 2 ^ k := by
    rw [Nat.shiftLeft_eq]
    exact Nat.mul_lt_mul_of_pos_right hhigh (Nat.two_pow_pos k)
  rw [Nat.mod_eq_of_lt hhigh, Nat.mod_eq_of_lt hshift]
  exact Text.shiftLeft_or_mod n k

theorem join_u16 (w : UInt16) :
    ((w >>> 8).toUInt8.toUInt16 <<< 8) ||| w.toUInt8.toUInt16 = w := by
  apply UInt16.toNat_inj.mp
  simpa using join_halves (k := 8) w.toNat_lt

theorem join_u32 (w : UInt32) :
    ((w >>> 16).toUInt16.toUInt32 <<< 16) ||| w.toUInt16.toUInt32 = w := by
  apply UInt32.toNat_inj.mp
  simpa using join_halves (k := 16) w.toNat_lt

theorem join_u64 (w : UInt64) :
    ((w >>> 32).toUInt32.toUInt64 <<< 32) ||| w.toUInt32.toUInt64 = w := by
  apply UInt64.toNat_inj.mp
  simpa using join_halves (k := 32) w.toNat_lt

theorem u8_reads (b : UInt8) : u8.Reads [b] b := by
  intro offset rest
  rfl

theorem u16_reads (w : UInt16) : u16.Reads (BigEndian.u16 w) w := by
  have h : u16.Reads ([(w >>> 8).toUInt8] ++ [w.toUInt8])
      (((w >>> 8).toUInt8.toUInt16 <<< 8) ||| w.toUInt8.toUInt16) := by
    apply (u8_reads _).bind
    exact (u8_reads w.toUInt8).map _
  rw [join_u16] at h
  exact h

theorem u32_reads (w : UInt32) : u32.Reads (BigEndian.u32 w) w := by
  have h : u32.Reads (BigEndian.u32 w)
      (((w >>> 16).toUInt16.toUInt32 <<< 16) ||| w.toUInt16.toUInt32) := by
    apply (u16_reads _).bind
    exact (u16_reads w.toUInt16).map _
  rw [join_u32] at h
  exact h

theorem u64_reads (w : UInt64) : u64.Reads (BigEndian.u64 w) w := by
  have h : u64.Reads (BigEndian.u64 w)
      (((w >>> 32).toUInt32.toUInt64 <<< 32) ||| w.toUInt32.toUInt64) := by
    apply (u32_reads _).bind
    exact (u32_reads w.toUInt32).map _
  rw [join_u64] at h
  exact h

theorem block_reads (data : List UInt8) : (block data.length).Reads data data := by
  intro offset rest
  have hfits : data.length ≤ (data ++ rest).length := by simp
  have hblock : block data.length ⟨offset, data ++ rest⟩ =
      .ok ((data ++ rest).take data.length,
        ⟨offset + data.length, (data ++ rest).drop data.length⟩) := by
    unfold block
    show (if data.length ≤ (data ++ rest).length then _ else _ : Reader _) _ = _
    rw [if_pos hfits]
    rfl
  rw [hblock, List.take_left, List.drop_left]

theorem short_block_reads {data : List UInt8} (h : data.length < 2 ^ 16)
    {next : List UInt8 → Reader α}
    {bytes : List UInt8} {value : α} (hnext : (next data).Reads bytes value) :
    (u16 >>= fun length => block length.toNat >>= next).Reads
      (BigEndian.u16 data.length.toUInt16 ++ (data ++ bytes)) value := by
  have hlength : data.length.toUInt16.toNat = data.length := by
    simpa using h
  have hblock := block_reads data
  rw [← hlength] at hblock
  exact (u16_reads data.length.toUInt16).bind (hblock.bind hnext)

theorem long_block_reads {data : List UInt8} (h : data.length < 2 ^ 32)
    {next : List UInt8 → Reader α}
    {bytes : List UInt8} {value : α} (hnext : (next data).Reads bytes value) :
    (u32 >>= fun length => block length.toNat >>= next).Reads
      (BigEndian.u32 data.length.toUInt32 ++ (data ++ bytes)) value := by
  have hlength : data.length.toUInt32.toNat = data.length := by
    simpa using h
  have hblock := block_reads data
  rw [← hlength] at hblock
  exact (u32_reads data.length.toUInt32).bind (hblock.bind hnext)

theorem length_lt_counted {bytes : α → List UInt8} {items : List α} {a : α} (h : a ∈ items) :
    (bytes a).length < (counted bytes items).length := by
  have hle : (bytes a).length ≤ (items.map bytes).flatten.length :=
    (List.sublist_flatten_of_mem (List.mem_map_of_mem h)).length_le
  have hcount : (BigEndian.u16 items.length.toUInt16).length = 2 := rfl
  rw [counted, List.flatMap_def, List.length_append, hcount]
  omega

theorem counted_reads {item : Reader β} {bytes : α → List UInt8} {content? : α → Option β}
    {items : List α} (hcount : items.length < 2 ^ 16)
    (h : ∀ a ∈ items, ∃ b, content? a = some b ∧ item.Reads (bytes a) b) :
    ∃ contents, items.mapM content? = some contents ∧
      (u16 >>= fun count => times item count.toNat).Reads (counted bytes items) contents := by
  obtain ⟨contents, hcontents, hreads⟩ := Reads.times h
  have hlength : items.length.toUInt16.toNat = items.length := by
    simpa using hcount
  rw [← hlength] at hreads
  refine ⟨contents, hcontents, ?_⟩
  exact (u16_reads items.length.toUInt16).bind hreads

end Reader

/-!
# Constants
-/

/-- The constant takes an index, and its text has a length of two bytes. -/
def Constant.Fits : Constant → Prop
  | unusable => False
  | utf8 text => (Text.toModifiedUtf8 text).length < 2 ^ 16
  | _ => True

instance : DecidablePred Constant.Fits := fun c => by
  unfold Constant.Fits
  split <;> infer_instance

namespace Reader

theorem tagged_one_reads (make : UInt16 → Constant) (a : UInt16) :
    (u16 >>= fun a => pure (make a)).Reads ([a].flatMap BigEndian.u16) (make a) := by
  rw [List.flatMap_singleton]
  exact (u16_reads a).map make

theorem tagged_two_reads (make : UInt16 → UInt16 → Constant) (a b : UInt16) :
    (u16 >>= fun a => u16 >>= fun b => pure (make a b)).Reads ([a, b].flatMap BigEndian.u16)
      (make a b) := by
  rw [List.flatMap_cons, List.flatMap_singleton]
  apply (u16_reads a).bind
  exact (u16_reads b).map (make a)

theorem decodeText_reads (text : String) :
    (decodeText (Text.toModifiedUtf8 text)).Reads [] text := by
  unfold decodeText
  rw [Text.ofModifiedUtf8_toModifiedUtf8]
  exact Reads.pure text

theorem text_reads {text : String} (h : (Text.toModifiedUtf8 text).length < 2 ^ 16) :
    (u16 >>= fun length => block length.toNat >>= fun data => decodeText data >>= fun text =>
      pure (Constant.utf8 text)).Reads
      (BigEndian.u16 (Text.toModifiedUtf8 text).length.toUInt16 ++ Text.toModifiedUtf8 text)
      (.utf8 text) := by
  have hread : (u16 >>= fun length => block length.toNat >>= fun data => decodeText data >>=
      fun text => pure (Constant.utf8 text)).Reads _ (.utf8 text) :=
    short_block_reads h ((decodeText_reads text).map Constant.utf8)
  rw [List.append_nil] at hread
  exact hread

theorem constant_reads {c : Constant} (h : c.Fits) (index : Nat) :
    (u8 >>= constantOfTag index).Reads c.bytes c := by
  cases c with
  | unusable => exact h.elim
  | utf8 text =>
      exact (u8_reads 1).bind (text_reads h)
  | integer value =>
      apply (u8_reads 3).bind
      exact (u32_reads value.toUInt32).map fun w => Constant.integer w.toInt32
  | float word =>
      apply (u8_reads 4).bind
      exact (u32_reads word).map Constant.float
  | long value =>
      apply (u8_reads 5).bind
      exact (u64_reads value.toUInt64).map fun w => Constant.long w.toInt64
  | double word =>
      apply (u8_reads 6).bind
      exact (u64_reads word).map Constant.double
  | classRef name => exact (u8_reads 7).bind (tagged_one_reads Constant.classRef name)
  | string text => exact (u8_reads 8).bind (tagged_one_reads Constant.string text)
  | fieldRef a b => exact (u8_reads 9).bind (tagged_two_reads Constant.fieldRef a b)
  | methodRef a b => exact (u8_reads 10).bind (tagged_two_reads Constant.methodRef a b)
  | interfaceMethodRef a b =>
      exact (u8_reads 11).bind (tagged_two_reads Constant.interfaceMethodRef a b)
  | nameAndType a b => exact (u8_reads 12).bind (tagged_two_reads Constant.nameAndType a b)
  | methodHandle kind target =>
      apply (u8_reads 15).bind
      apply (u8_reads kind).bind
      exact (u16_reads target).map (Constant.methodHandle kind)
  | methodType a => exact (u8_reads 16).bind (tagged_one_reads Constant.methodType a)
  | dynamic a b => exact (u8_reads 17).bind (tagged_two_reads Constant.dynamic a b)
  | invokeDynamic a b => exact (u8_reads 18).bind (tagged_two_reads Constant.invokeDynamic a b)
  | moduleName a => exact (u8_reads 19).bind (tagged_one_reads Constant.moduleName a)
  | packageName a => exact (u8_reads 20).bind (tagged_one_reads Constant.packageName a)

theorem constants_narrow {entries all : Array Constant} {c : Constant} {bytes : List UInt8}
    {remaining : Nat} (h : c.Fits) (hnarrow : c.isWide = false)
    (hrest : (constants (entries.push c) remaining).Reads bytes all) :
    (constants entries (remaining + 1)).Reads (c.bytes ++ bytes) all := by
  have hentry := constant_reads h entries.size
  have hcheck : ¬c.isWide = true := by simp [hnarrow]
  cases remaining with
  | zero =>
      apply hentry.bind_inner
      exact Reads.of_not hcheck hrest
  | succ remaining =>
      apply hentry.bind_inner
      exact Reads.of_not hcheck hrest

theorem constants_wide {entries all : Array Constant} {c : Constant} {bytes : List UInt8}
    {remaining : Nat} (h : c.Fits) (hwide : c.isWide = true)
    (hrest : (constants ((entries.push c).push .unusable) remaining).Reads bytes all) :
    (constants entries (remaining + 2)).Reads (c.bytes ++ bytes) all := by
  apply (constant_reads h entries.size).bind_inner
  rw [if_pos hwide]
  exact hrest

theorem constants_reads {cs : List Constant} (h : ∀ c ∈ cs, c.Fits) (entries : Array Constant) :
    (constants entries (cs.flatMap Constant.entries).length).Reads (cs.flatMap Constant.bytes)
      (entries ++ (cs.flatMap Constant.entries).toArray) := by
  -- the table so far is any, since the next constants are entered behind it
  induction cs generalizing entries with
  | nil =>
      rw [List.flatMap_nil, Array.append_empty]
      exact Reads.pure entries
  | cons c cs ih =>
      have hc : c.Fits := h c (by simp)
      have hrest := fun entries => ih (fun c' hc' => h c' (by simp [hc'])) entries
      cases hwide : c.isWide with
      | false =>
          have hentries : c.entries = [c] := by simp [Constant.entries, hwide]
          have hread := constants_narrow hc hwide (hrest (entries.push c))
          simpa [hentries] using hread
      | true =>
          have hentries : c.entries = [c, .unusable] := by simp [Constant.entries, hwide]
          have hread := constants_wide hc hwide (hrest ((entries.push c).push .unusable))
          simpa [hentries] using hread

theorem pool_reads {cs : List Constant} (h : ∀ c ∈ cs, c.Fits)
    (hsize : (Pool.ofConstants cs).size < 2 ^ 16) :
    pool.Reads (Pool.bytes cs) (Pool.ofConstants cs) := by
  have hcount : (Pool.ofConstants cs).size = (cs.flatMap Constant.entries).length + 1 := by
    simp [Pool.ofConstants, Pool.size]
  have hword : (Pool.ofConstants cs).size.toUInt16.toNat = (Pool.ofConstants cs).size := by
    simpa using hsize
  have hpositive : (Pool.ofConstants cs).size.toUInt16 ≠ 0 := by
    intro hzero
    rw [hzero] at hword
    simp [hcount] at hword
  apply (u16_reads _).bind
  apply Reads.of_not hpositive
  rw [hword, hcount, Nat.add_sub_cancel]
  have hread := (constants_reads h #[.unusable]).map Pool.mk
  simpa [Pool.ofConstants] using hread

end Reader

/-!
# Attributes

An attribute nested in code has fewer bytes than the one around it, so the depth that reads the
outer one is enough for it.
-/

namespace AttributeLayout

/-- The name is the one of the kind, and counts and lengths fit their fields. -/
inductive WellFormed (p : Pool) : AttributeLayout → Prop where
  | constantValue {name index : UInt16} (hname : p.utf8 name = .ok "ConstantValue") :
      WellFormed p (.constantValue name index)
  | code {name : UInt16} {body : Body} {attributes : List AttributeLayout}
      (hname : p.utf8 name = .ok "Code") (hcode : body.code.length < 2 ^ 32)
      (hhandlers : body.handlers.length < 2 ^ 16) (hcount : attributes.length < 2 ^ 16)
      (hlength : (body.bytes ++ counted bytes attributes).length < 2 ^ 32)
      (hattributes : ∀ a ∈ attributes, WellFormed p a) :
      WellFormed p (.code name body attributes)
  | other {name : UInt16} {text : String} {data : List UInt8} (hname : p.utf8 name = .ok text)
      (hconstant : text ≠ "ConstantValue") (hcode : text ≠ "Code")
      (hlength : data.length < 2 ^ 32) :
      WellFormed p (.other name data)

theorem listBytes_eq_flatMap (attributes : List AttributeLayout) :
    listBytes attributes = attributes.flatMap bytes := by
  induction attributes with
  | nil => rfl
  | cons a attributes ih => rw [listBytes, ih, List.flatMap_cons]

theorem listContent?_eq_mapM (p : Pool) (attributes : List AttributeLayout) :
    listContent? p attributes = attributes.mapM (content? p) := by
  induction attributes with
  | nil => rfl
  | cons a attributes ih =>
      rw [listContent?, ih, List.mapM_cons]
      cases content? p a with
      | none => rfl
      | some content =>
          cases attributes.mapM (content? p) with
          | none => rfl
          | some contents => rfl

theorem bytes_code (name : UInt16) (body : Body) (attributes : List AttributeLayout) :
    (code name body attributes).bytes = framed name (body.bytes ++ counted bytes attributes) := by
  rw [bytes, listBytes_eq_flatMap, counted, List.append_assoc]

theorem length_framed (name : UInt16) (data : List UInt8) :
    (framed name data).length = data.length + 6 := by
  simp [framed, BigEndian.u16, BigEndian.u32]

end AttributeLayout

namespace Reader

theorem handler_reads (h : Handler) : handler.Reads h.bytes h := by
  unfold Handler.bytes
  rw [List.append_assoc, List.append_assoc]
  apply (u16_reads h.start).bind
  apply (u16_reads h.stop).bind
  apply (u16_reads h.target).bind
  exact (u16_reads h.catchType).map _

theorem code_reads {body : Body} (hcode : body.code.length < 2 ^ 32)
    (hhandlers : body.handlers.length < 2 ^ 16) {nested : Reader (List Attribute)}
    {bytes : List UInt8} {attributes : List Attribute} (hnested : nested.Reads bytes attributes) :
    (code nested).Reads (body.bytes ++ bytes) (.code body attributes) := by
  have hitems : ∀ h ∈ body.handlers, ∃ b, some h = some b ∧ handler.Reads h.bytes b := by
    intro h _
    exact ⟨h, rfl, handler_reads h⟩
  obtain ⟨handlers, hcontents, hread⟩ := counted_reads hhandlers hitems
  have hsame : body.handlers.mapM some = some (body.handlers.map id) := List.mapM_pure
  rw [hcontents, List.map_id, Option.some_inj] at hsame
  subst hsame
  unfold Body.bytes
  simp only [List.append_assoc]
  apply (u16_reads body.maxStack).bind
  apply (u16_reads body.maxLocals).bind
  apply long_block_reads hcode
  apply hread.bind_inner
  exact hnested.map (Attribute.code body)

theorem singleAttribute_reads {p : Pool} {nested : Reader (List Attribute)} {name : UInt16}
    {text : String} {data : List UInt8} {value : Attribute} (hname : p.utf8 name = .ok text)
    (hlength : data.length < 2 ^ 32)
    (h : (if text = "ConstantValue" then
        within data u16 >>= fun index => pure (Attribute.constantValue index)
      else if text = "Code" then within data (code nested)
      else pure (Attribute.other text data) : Reader Attribute).Reads [] value) :
    (singleAttribute p nested).Reads (AttributeLayout.framed name data) value := by
  unfold AttributeLayout.framed
  rw [List.append_assoc]
  apply (u16_reads name).bind
  apply Reads.lift_bind hname
  rw [← List.append_nil (BigEndian.u32 _ ++ data), List.append_assoc]
  exact long_block_reads hlength h

theorem attributes_reads_of {p : Pool} {depth : Nat} {layouts : List AttributeLayout}
    (hcount : layouts.length < 2 ^ 16)
    (h : ∀ a ∈ layouts, ∃ content, a.content? p = some content ∧
      (singleAttribute p (attributes p depth)).Reads a.bytes content) :
    ∃ contents, AttributeLayout.listContent? p layouts = some contents ∧
      (attributes p (depth + 1)).Reads (counted AttributeLayout.bytes layouts) contents := by
  obtain ⟨contents, hcontents, hread⟩ := counted_reads hcount h
  refine ⟨contents, ?_, hread⟩
  rw [AttributeLayout.listContent?_eq_mapM, hcontents]

theorem attribute_reads {p : Pool} {a : AttributeLayout} (h : a.WellFormed p) :
    ∀ depth, a.bytes.length ≤ depth → ∃ content, a.content? p = some content ∧
      (singleAttribute p (attributes p depth)).Reads a.bytes content := by
  -- nested attributes are shorter than the code that holds them, so one level less is enough
  induction h with
  | @constantValue name index hname =>
      intro depth _
      refine ⟨.constantValue index, ?_, ?_⟩
      · simp [AttributeLayout.content?, hname]
      · rw [AttributeLayout.bytes]
        apply singleAttribute_reads hname (by simp [BigEndian.u16])
        exact (u16_reads index).within.map Attribute.constantValue
  | @code name body layouts hname hcode hhandlers hcount hlength _ ih =>
      intro depth hdepth
      rw [AttributeLayout.bytes_code, AttributeLayout.length_framed, List.length_append] at hdepth
      obtain ⟨depth, rfl⟩ : ∃ d, depth = d + 1 := ⟨depth - 1, by omega⟩
      have hnested : ∀ a ∈ layouts, ∃ content, a.content? p = some content ∧
          (singleAttribute p (attributes p depth)).Reads a.bytes content := by
        intro a ha
        have hlt : a.bytes.length < (counted AttributeLayout.bytes layouts).length :=
          length_lt_counted ha
        exact ih a ha depth (by omega)
      obtain ⟨contents, hcontents, hread⟩ := attributes_reads_of hcount hnested
      refine ⟨.code body contents, ?_, ?_⟩
      · simp [AttributeLayout.content?, hname, hcontents]
      · rw [AttributeLayout.bytes_code]
        apply singleAttribute_reads hname hlength
        exact (code_reads hcode hhandlers hread).within
  | @other name text data hname hconstant hcode hlength =>
      intro depth _
      refine ⟨.other text data, ?_, ?_⟩
      · simp [AttributeLayout.content?, hname, hconstant, hcode]
      · rw [AttributeLayout.bytes]
        apply singleAttribute_reads hname hlength
        rw [if_neg hconstant, if_neg hcode]
        exact Reads.pure (Attribute.other text data)

theorem attributes_reads {p : Pool} {depth : Nat} {layouts : List AttributeLayout}
    (hcount : layouts.length < 2 ^ 16) (h : ∀ a ∈ layouts, a.WellFormed p)
    (hdepth : (counted AttributeLayout.bytes layouts).length ≤ depth) :
    ∃ contents, AttributeLayout.listContent? p layouts = some contents ∧
      (attributes p (depth + 1)).Reads (counted AttributeLayout.bytes layouts) contents := by
  apply attributes_reads_of hcount
  intro a ha
  have hlt : a.bytes.length < (counted AttributeLayout.bytes layouts).length :=
    length_lt_counted ha
  exact attribute_reads (h a ha) depth (by omega)

end Reader

/-!
# Members and classes
-/

structure MemberLayout.WellFormed (p : Pool) (m : MemberLayout) : Prop where
  name : ∃ text, p.utf8 m.name = .ok text
  descriptor : ∃ text, p.utf8 m.descriptor = .ok text
  count : m.attributes.length < 2 ^ 16
  attributes : ∀ a ∈ m.attributes, a.WellFormed p

structure ClassLayout.WellFormed (c : ClassLayout) : Prop where
  major : 45 ≤ c.major
  constants : ∀ constant ∈ c.constants, constant.Fits
  poolSize : c.pool.size < 2 ^ 16
  name : ∃ text, c.pool.className c.thisClass = .ok text
  superName : c.superClass = 0 ∨ ∃ text, c.pool.className c.superClass = .ok text
  interfaceCount : c.interfaces.length < 2 ^ 16
  interfaces : ∀ index ∈ c.interfaces, ∃ text, c.pool.className index = .ok text
  fieldCount : c.fields.length < 2 ^ 16
  fields : ∀ m ∈ c.fields, m.WellFormed c.pool
  methodCount : c.methods.length < 2 ^ 16
  methods : ∀ m ∈ c.methods, m.WellFormed c.pool
  attributeCount : c.attributes.length < 2 ^ 16
  attributes : ∀ a ∈ c.attributes, a.WellFormed c.pool

namespace Reader

theorem member_reads {p : Pool} {m : MemberLayout} (h : m.WellFormed p) {depth : Nat}
    (hdepth : m.bytes.length ≤ depth) :
    ∃ content, m.content? p = some content ∧ (member p (depth + 1)).Reads m.bytes content := by
  obtain ⟨name, hname⟩ := h.name
  obtain ⟨descriptor, hdescriptor⟩ := h.descriptor
  have hshort : (counted AttributeLayout.bytes m.attributes).length ≤ depth := by
    rw [MemberLayout.bytes, List.length_append] at hdepth
    omega
  obtain ⟨contents, hcontents, hread⟩ := attributes_reads h.count h.attributes hshort
  refine ⟨⟨.ofWord m.access, name, descriptor, contents⟩, ?_, ?_⟩
  · simp [MemberLayout.content?, hname, hdescriptor, hcontents, Except.toOption]
  · unfold MemberLayout.bytes
    simp only [List.append_assoc]
    apply (u16_reads m.access).bind
    apply (u16_reads m.name).bind
    apply Reads.lift_bind hname
    apply (u16_reads m.descriptor).bind
    apply Reads.lift_bind hdescriptor
    exact hread.map _

theorem members_reads {p : Pool} {depth : Nat} {layouts : List MemberLayout}
    (hcount : layouts.length < 2 ^ 16) (h : ∀ m ∈ layouts, m.WellFormed p)
    (hdepth : (counted MemberLayout.bytes layouts).length ≤ depth) :
    ∃ contents, layouts.mapM (MemberLayout.content? p) = some contents ∧
      (members p (depth + 1)).Reads (counted MemberLayout.bytes layouts) contents := by
  apply counted_reads hcount
  intro m hm
  have hlt : m.bytes.length < (counted MemberLayout.bytes layouts).length :=
    length_lt_counted hm
  exact member_reads (h m hm) (by omega)

theorem interfaces_reads {p : Pool} {indices : List UInt16} (hcount : indices.length < 2 ^ 16)
    (h : ∀ index ∈ indices, ∃ text, p.className index = .ok text) :
    ∃ names, indices.mapM (fun index => (p.className index).toOption) = some names ∧
      (u16 >>= fun count => times (do p.className (← u16)) count.toNat).Reads
        (counted BigEndian.u16 indices) names := by
  apply counted_reads hcount
  intro index hindex
  obtain ⟨text, htext⟩ := h index hindex
  refine ⟨text, ?_, ?_⟩
  · simp [htext, Except.toOption]
  · rw [← List.append_nil (BigEndian.u16 index)]
    apply (u16_reads index).bind
    exact Reads.lift htext

theorem optionalClassName_of {c : ClassLayout}
    (h : c.superClass = 0 ∨ ∃ text, c.pool.className c.superClass = .ok text) :
    ∃ superName, c.superName? = some superName ∧
      optionalClassName c.pool c.superClass = .ok superName := by
  unfold ClassLayout.superName? optionalClassName
  by_cases hzero : c.superClass = 0
  · refine ⟨none, ?_, ?_⟩
    · rw [if_pos hzero]
    · rw [if_pos hzero]
  · obtain ⟨text, htext⟩ := h.resolve_left hzero
    refine ⟨some text, ?_, ?_⟩
    · rw [if_neg hzero, htext]
      rfl
    · rw [if_neg hzero, htext]
      rfl

theorem classFile_reads {c : ClassLayout} (h : c.WellFormed) {depth : Nat}
    (hdepth : c.bytes.length ≤ depth) :
    ∃ file, c.content? = some file ∧ (classFile (depth + 1)).Reads c.bytes file := by
  -- Each of the counted lists is a part of the bytes.
  simp only [ClassLayout.bytes, List.length_append] at hdepth
  obtain ⟨name, hname⟩ := h.name
  obtain ⟨superName, hsuper, hsuperName⟩ := optionalClassName_of h.superName
  obtain ⟨interfaces, hinterfaces, hreadInterfaces⟩ :=
    interfaces_reads h.interfaceCount h.interfaces
  have hfieldsDepth : (counted MemberLayout.bytes c.fields).length ≤ depth := by omega
  have hmethodsDepth : (counted MemberLayout.bytes c.methods).length ≤ depth := by omega
  have hattributesDepth : (counted AttributeLayout.bytes c.attributes).length ≤ depth := by omega
  obtain ⟨fields, hfields, hreadFields⟩ := members_reads h.fieldCount h.fields hfieldsDepth
  obtain ⟨methods, hmethods, hreadMethods⟩ := members_reads h.methodCount h.methods hmethodsDepth
  obtain ⟨attributes, hattributes, hreadAttributes⟩ :=
    attributes_reads h.attributeCount h.attributes hattributesDepth
  have hmajor : ¬c.major < 45 := UInt16.not_lt.mpr h.major
  refine ⟨⟨c.minor, c.major, c.pool, .ofWord c.access, name, superName, interfaces, fields, methods,
    attributes⟩, ?_, ?_⟩
  · have hthis : (c.pool.className c.thisClass).toOption = some name := by
      rw [hname]
      rfl
    simp [ClassLayout.content?, hthis, hsuper, hinterfaces, hfields, hmethods, hattributes]
  · unfold ClassLayout.bytes
    simp only [List.append_assoc]
    apply (u32_reads 0xCAFEBABE).bind
    apply Reads.of_not (by decide)
    apply (u16_reads c.minor).bind
    apply (u16_reads c.major).bind
    apply Reads.of_not hmajor
    apply (pool_reads h.constants h.poolSize).bind
    apply (u16_reads c.access).bind
    apply (u16_reads c.thisClass).bind
    apply Reads.lift_bind hname
    apply (u16_reads c.superClass).bind
    apply Reads.lift_bind hsuperName
    apply hreadInterfaces.bind_inner
    apply hreadFields.bind
    apply hreadMethods.bind
    exact hreadAttributes.map _

end Reader

theorem ClassLayout.read_bytes {c : ClassLayout} (h : c.WellFormed) :
    ∃ file, c.content? = some file ∧ ClassFile.read c.bytes = .ok file := by
  obtain ⟨file, hcontent, hread⟩ := Reader.classFile_reads h (Nat.le_refl c.bytes.length)
  have hrun := hread 0 []
  rw [List.append_nil] at hrun
  refine ⟨file, hcontent, ?_⟩
  unfold ClassFile.read
  show Except.map Prod.fst (Reader.classFile (c.bytes.length + 1) ⟨0, c.bytes⟩) = .ok file
  rw [hrun]
  rfl

namespace ClassLayout

/-- A class with a wide constant, an interface, a constant field, and code with a handler that
holds an unknown attribute and code again. -/
def counter : ClassLayout where
  minor := 3
  major := 52
  constants := [.utf8 "Counter", .classRef 1, .utf8 "java/lang/Object", .classRef 3,
    .utf8 "Countable", .classRef 5, .long 7, .utf8 "Code", .utf8 "ConstantValue", .utf8 "start",
    .utf8 "J", .utf8 "run", .utf8 "()V", .utf8 "Signature"]
  access := 0x8021
  thisClass := 2
  superClass := 4
  interfaces := [6]
  fields := [⟨0x0018, 11, 12, [.constantValue 10 7]⟩]
  methods := [⟨0x0009, 13, 14, [.code 9 ⟨0, 0, [0xB1], [⟨0, 1, 0, 0⟩]⟩
    [.other 15 [0, 12], .code 9 ⟨1, 1, [], []⟩ []]]⟩]
  attributes := [.other 15 []]

theorem signature_wellFormed {data : List UInt8} (h : data.length < 2 ^ 32) :
    (AttributeLayout.other 15 data).WellFormed counter.pool := by
  have hname : counter.pool.utf8 15 = .ok "Signature" := rfl
  exact .other hname (by decide) (by decide) h

theorem counter_wellFormed : counter.WellFormed where
  major := by decide
  constants := by decide +kernel
  poolSize := by decide
  name := ⟨"Counter", rfl⟩
  superName := .inr ⟨"java/lang/Object", rfl⟩
  interfaceCount := by decide
  interfaces := by
    intro index hindex
    rw [List.mem_singleton.mp hindex]
    exact ⟨"Countable", rfl⟩
  fieldCount := by decide
  fields := by
    intro m hm
    rw [List.mem_singleton.mp hm]
    refine ⟨⟨"start", rfl⟩, ⟨"J", rfl⟩, by decide, ?_⟩
    intro a ha
    rw [List.mem_singleton.mp ha]
    exact .constantValue rfl
  methodCount := by decide
  methods := by
    intro m hm
    rw [List.mem_singleton.mp hm]
    refine ⟨⟨"run", rfl⟩, ⟨"()V", rfl⟩, by decide, ?_⟩
    intro a ha
    rw [List.mem_singleton.mp ha]
    apply AttributeLayout.WellFormed.code rfl (by decide) (by decide) (by decide) (by decide)
    intro nested hnested
    simp only [List.mem_cons, List.not_mem_nil, or_false] at hnested
    rcases hnested with rfl | rfl
    · exact signature_wellFormed (by decide)
    · exact .code rfl (by decide) (by decide) (by decide) (by decide) (by simp)
  attributeCount := by decide
  attributes := by
    intro a ha
    rw [List.mem_singleton.mp ha]
    exact signature_wellFormed (by decide)

theorem counter_read_back :
    counter.WellFormed ∧
      ∃ file, counter.content? = some file ∧ ClassFile.read counter.bytes = .ok file :=
  ⟨counter_wellFormed, read_bytes counter_wellFormed⟩

end ClassLayout
end Bytecode
