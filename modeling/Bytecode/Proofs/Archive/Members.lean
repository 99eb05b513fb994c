import Bytecode.Archive.Zip
import Bytecode.Proofs.Archive.Checksums
import Mathlib.Data.Option.Basic

/-!
# Members of archives

Which member a name stands for, what is read from it, and where the members of an archive that is
opened lie.
-/

namespace Bytecode
namespace Archive

/-!
# Reading
-/

namespace Zip

variable {z : Zip} {m : Member} {contents : List UInt8}

/-- Of several members of a name the last one counts. -/
theorem member?_eq_some_iff {name : String} :
    z.member? name = some m ↔ m.listing.name = name ∧
      ∃ front back, z.members = front ++ m :: back ∧
        ∀ other ∈ back, other.listing.name ≠ name := by
  rw [member?, List.find?_eq_some_iff_append, beq_iff_eq]
  refine and_congr_right fun _ => ?_
  constructor
  · rintro ⟨later, earlier, hmembers, hlater⟩
    refine ⟨earlier.reverse, later.reverse, ?_, fun other hother => ?_⟩
    · rw [← List.reverse_reverse z.members, hmembers]
      simp
    · simpa using hlater other (List.mem_reverse.mp hother)
  · rintro ⟨front, back, hmembers, hback⟩
    refine ⟨back.reverse, front.reverse, ?_, fun other hother => ?_⟩
    · rw [hmembers]
      simp
    · simpa using hback other (List.mem_reverse.mp hother)

/-- The bytes of a member, as they are in the archive. -/
def packed (z : Zip) (m : Member) : Array UInt8 :=
  z.bytes.extract m.contents (m.contents + m.listing.compressedSize)

/-- What the bytes of a member hold, before the checksum is compared. -/
def unpacked (z : Zip) (m : Member) : Except ZipError (List UInt8) :=
  if m.listing.method = 0 then .ok (z.packed m).toList
  else (inflate (z.packed m)).mapError .file

/-- A member whose contents are neither encrypted nor compressed in an unknown way. -/
structure Open (m : Member) : Prop where
  encrypted : m.listing.encrypted = false
  locked : m.listing.locked = false
  method : m.listing.method = 0 ∨ m.listing.method = 8

def checked (m : Member) (contents : List UInt8) : Except ZipError (List UInt8) :=
  if checksum contents = m.listing.checksum then .ok contents else .error (.file .badChecksum)

theorem read_of_open (h : Open m) : z.read m = (z.unpacked m).bind (checked m) := by
  obtain ⟨hencrypted, hlocked, hmethod⟩ := h
  have hknown : ¬(m.listing.method ≠ 0 ∧ m.listing.method ≠ 8) := by omega
  unfold read unpacked packed
  simp only [hencrypted, hlocked, hknown, if_false, Bool.false_eq_true]
  by_cases hstored : m.listing.method = 0
  · rw [if_pos hstored, if_pos hstored]
    rfl
  · rw [if_neg hstored, if_neg hstored]
    cases inflate (z.bytes.extract m.contents (m.contents + m.listing.compressedSize)) <;> rfl

theorem open_of_read (h : z.read m = .ok contents) : Open m := by
  unfold read at h
  dsimp only at h
  split at h
  next => cases h
  next hencrypted =>
    split at h
    next => cases h
    next hmethod =>
      split at h
      next => cases h
      next hlocked =>
        exact ⟨Bool.eq_false_iff.mpr hencrypted, Bool.eq_false_iff.mpr hlocked, by omega⟩

/-- Contents are read if they can be unpacked and have the checksum that is listed. -/
theorem read_eq_ok_iff :
    z.read m = .ok contents ↔
      Open m ∧ z.unpacked m = .ok contents ∧ checksum contents = m.listing.checksum := by
  constructor
  · intro h
    have hopen := open_of_read h
    rw [read_of_open hopen] at h
    cases hunpacked : z.unpacked m with
    | error e =>
        rw [hunpacked] at h
        cases h
    | ok unpacked =>
        rw [hunpacked] at h
        change checked m unpacked = .ok contents at h
        unfold checked at h
        split at h
        next hsum =>
          cases h
          exact ⟨hopen, rfl, hsum⟩
        next => cases h
  · rintro ⟨hopen, hunpacked, hsum⟩
    rw [read_of_open hopen, hunpacked]
    exact if_pos hsum

/-- A change of one byte of stored contents is noticed. -/
theorem read_of_changed {z' : Zip} {front back : List UInt8} {x y : UInt8}
    (h : z.read m = .ok (front ++ x :: back)) (hstored : m.listing.method = 0)
    (hchanged : (z'.packed m).toList = front ++ y :: back) (hne : x ≠ y) :
    z'.read m = .error (.file .badChecksum) := by
  obtain ⟨hopen, -, hsum⟩ := read_eq_ok_iff.mp h
  have hunpacked : z'.unpacked m = .ok (front ++ y :: back) := by
    rw [unpacked, if_pos hstored, hchanged]
  rw [read_of_open hopen, hunpacked]
  exact if_neg fun hsum' => hne (checksum_eq_iff.mp (hsum.trans hsum'.symm))

/-!
# Opening
-/

/-- A member lies in front of the directory, behind its signature. -/
structure Listed (bytes : Array UInt8) (d : Directory) (m : Member) : Prop where
  header : m.listing.header < d.start
  signature : Signature.member.isAt bytes m.listing.header = true
  contents : m.listing.header + 30 ≤ m.contents
  behind : m.contents ≤ d.start

theorem memberOf?_listed {bytes : Array UInt8} {d : Directory} {l : Listing}
    (h : memberOf? bytes d l = some m) : Listed bytes d m := by
  simp only [memberOf?, Option.bind_eq_bind, Option.bind_eq_some_iff, Option.guard_eq_some'] at h
  obtain ⟨-, hheader, -, hsignature, nameLength, -, extraLength, -, -, hbehind, hm⟩ := h
  cases hm
  exact ⟨hheader, hsignature, by dsimp only; omega, hbehind⟩

theorem members?_listed {bytes : Array UInt8} {d : Directory} {offset count : Nat}
    {members : List Member} (h : members? bytes d offset count = some members) :
    members.length = count ∧ ∀ m ∈ members, Listed bytes d m := by
  induction count generalizing offset members with
  | zero =>
      cases h
      exact ⟨rfl, nofun⟩
  | succ count ih =>
      simp only [members?, Option.bind_eq_bind, Option.bind_eq_some_iff] at h
      obtain ⟨⟨listing, next⟩, -, first, hfirst, rest, hrest, hmembers⟩ := h
      cases hmembers
      obtain ⟨hlength, hlisted⟩ := ih hrest
      exact ⟨congrArg (· + 1) hlength, List.forall_mem_cons.mpr ⟨memberOf?_listed hfirst, hlisted⟩⟩

/-- An end record leads to a directory whose members can be read. -/
structure Leads (bytes : Array UInt8) (offset : Nat) (r : EndRecord) (d : Directory)
    (members : List Member) : Prop where
  signature : Signature.ending.isAt bytes offset = true
  record : EndRecord.read bytes offset = .ok r
  directory : r.locate bytes offset = .ok d
  members : d.members? bytes = some members

def Idle (bytes : Array UInt8) (offset : Nat) : Prop :=
  ∀ r d members, ¬Leads bytes offset r d members

/-- The last end record that leads to members decides. -/
theorem search_eq_ok {bytes : Array UInt8} {failure : Option ZipError} {stop : Nat}
    {members : List Member} (h : search bytes failure stop = .ok members) :
    ∃ offset r d, offset < stop ∧ Leads bytes offset r d members ∧
      ∀ later, offset < later → later < stop → Idle bytes later := by
  have hextend {offset : Nat} (hidle : Idle bytes offset)
      (h : ∃ start r d, start < offset ∧ Leads bytes start r d members ∧
        ∀ later, start < later → later < offset → Idle bytes later) :
      ∃ start r d, start < offset + 1 ∧ Leads bytes start r d members ∧
        ∀ later, start < later → later < offset + 1 → Idle bytes later := by
    obtain ⟨start, r, d, hstart, hleads, hlater⟩ := h
    refine ⟨start, r, d, Nat.lt_succ_of_lt hstart, hleads, fun later hlow hhigh => ?_⟩
    rcases Nat.lt_succ_iff_lt_or_eq.mp hhigh with hless | rfl
    · exact hlater later hlow hless
    · exact hidle
  fun_induction search bytes failure stop with
  | case1 => cases h
  | case2 failure offset hsignature ih =>
      refine hextend (fun r d members hleads => ?_) (ih h)
      rw [hleads.signature] at hsignature
      cases hsignature
  | case3 failure offset hsignature e hread ih =>
      refine hextend (fun r d members hleads => ?_) (ih h)
      rw [hleads.record] at hread
      cases hread
  | case4 failure offset hsignature r hread e hlocate ih =>
      refine hextend (fun r d members hleads => ?_) (ih h)
      rw [hleads.record] at hread
      cases hread
      rw [hleads.directory] at hlocate
      cases hlocate
  | case5 failure offset hsignature r hread d hlocate members hmembers =>
      cases h
      refine ⟨offset, r, d, Nat.lt_succ_self _, ⟨?_, hread, hlocate, hmembers⟩, ?_⟩
      · simpa using hsignature
      · intro later hlow hhigh
        omega
  | case6 failure offset hsignature r hread d hlocate hmembers ih =>
      refine hextend (fun r d members hleads => ?_) (ih h)
      rw [hleads.record] at hread
      cases hread
      rw [hleads.directory] at hlocate
      cases hlocate
      rw [hleads.members] at hmembers
      cases hmembers

/-- The members of an archive that is opened are those of the last end record that leads to any, and
they lie in front of its directory. -/
theorem ofBytes_eq_ok {bytes : List UInt8} (h : ofBytes bytes = .ok z) :
    ∃ offset r d, Leads bytes.toArray offset r d z.members ∧
      (∀ later, offset < later → later < bytes.length → Idle bytes.toArray later) ∧
      z.members.length = d.count ∧ ∀ m ∈ z.members, Listed bytes.toArray d m := by
  unfold ofBytes at h
  dsimp only at h
  cases hsearch : search bytes.toArray none bytes.toArray.size with
  | error e =>
      rw [hsearch] at h
      cases h
  | ok members =>
      rw [hsearch] at h
      cases h
      obtain ⟨offset, r, d, -, hleads, hlater⟩ := search_eq_ok hsearch
      have hmembers := hleads.members
      simp only [Directory.members?, Option.bind_eq_bind, Option.bind_eq_some_iff,
        Option.guard_eq_some'] at hmembers
      obtain ⟨-, -, hmembers⟩ := hmembers
      exact ⟨offset, r, d, hleads, hlater, members?_listed hmembers⟩

end Zip
end Archive
end Bytecode
