import Mathlib.Data.String.Basic

/-!
# Texts cut at a character

The pieces of a text between the places where a character stands.
-/

namespace Bytecode
namespace Text

open String

theorem splitOnAux_singleton (c : Char) (l m r : List Char) (done : List String) :
    (ofList (l ++ m ++ r)).splitOnAux (ofList [c]) ⟨utf8Len l⟩ ⟨utf8Len l + utf8Len m⟩ 0 done =
      done.reverse ++ (List.splitOnPPrepend (· == c) r m.reverse).map ofList := by
  -- `l` is cut up already, `m` is the piece so far, and `r` is still to be read
  induction r generalizing l m done with
  | nil =>
      have hend : Pos.Raw.atEnd (ofList (l ++ m ++ [])) ⟨utf8Len l + utf8Len m⟩ = true := by
        rw [← utf8Len_append, atEnd_of_valid]
      rw [splitOnAux, if_pos hend, extract_of_valid]
      simp
  | cons d r ih =>
      have hmore : ¬Pos.Raw.atEnd (ofList (l ++ m ++ d :: r)) ⟨utf8Len l + utf8Len m⟩ = true := by
        rw [← utf8Len_append, atEnd_of_valid]
        exact List.cons_ne_nil d r
      have hget : Pos.Raw.get (ofList (l ++ m ++ d :: r)) ⟨utf8Len l + utf8Len m⟩ = d := by
        rw [← utf8Len_append, get_of_valid, List.headD_cons]
      have hnext : Pos.Raw.next (ofList (l ++ m ++ d :: r)) ⟨utf8Len l + utf8Len m⟩ =
          ⟨utf8Len l + utf8Len m + d.utf8Size⟩ := by
        rw [← utf8Len_append, next_of_valid]
      have hsep : Pos.Raw.get (ofList [c]) 0 = c := get_of_valid [] [c]
      have hsepNext : Pos.Raw.next (ofList [c]) 0 = ⟨c.utf8Size⟩ := by
        simpa using next_of_valid [] c []
      have hsepEnd : Pos.Raw.atEnd (ofList [c]) ⟨c.utf8Size⟩ = true := by
        simpa using atEnd_of_valid [c] []
      rw [splitOnAux, if_neg hmore, hget, hsep]
      by_cases hd : d = c
      · subst hd
        have hpiece : Pos.Raw.extract (ofList (l ++ m ++ d :: r)) ⟨utf8Len l⟩
            (Pos.Raw.unoffsetBy ⟨utf8Len l + utf8Len m + d.utf8Size⟩ ⟨d.utf8Size⟩) = ofList m := by
          rw [← extract_of_valid l m (d :: r)]
          congr 1
          exact Pos.Raw.ext (Nat.add_sub_cancel ..)
        have hstart : utf8Len (l ++ m ++ [d]) = utf8Len l + utf8Len m + d.utf8Size := by
          rw [utf8Len_append, utf8Len_append, utf8Len_cons, utf8Len_nil, Nat.zero_add]
        have hrest := ih (l ++ m ++ [d]) [] (ofList m :: done)
        rw [hstart, List.append_nil, List.append_assoc (l ++ m), List.reverse_cons,
          List.append_assoc done.reverse] at hrest
        rw [if_pos (beq_self_eq_true d)]
        dsimp only
        rw [hnext, hsepNext, if_pos hsepEnd, hpiece, List.splitOnPPrepend_cons_eq_if,
          if_pos (beq_self_eq_true d), List.reverse_reverse]
        exact hrest
      · have hlonger : utf8Len l + utf8Len (m ++ [d]) = utf8Len l + utf8Len m + d.utf8Size := by
          rw [utf8Len_append, utf8Len_cons, utf8Len_nil, Nat.zero_add, Nat.add_assoc]
        have hrest := ih l (m ++ [d]) done
        rw [hlonger, ← List.append_assoc, List.append_assoc (l ++ m), List.reverse_append] at hrest
        have hback : (⟨utf8Len l + utf8Len m⟩ : Pos.Raw).unoffsetBy 0 =
          ⟨utf8Len l + utf8Len m⟩ := rfl
        rw [if_neg (mt beq_iff_eq.mp hd), hback, hnext, List.splitOnPPrepend_cons_eq_if,
          if_neg (mt beq_iff_eq.mp hd)]
        exact hrest

theorem splitOn_singleton (text : String) (c : Char) :
    text.splitOn (ofList [c]) = (text.toList.splitOn c).map ofList := by
  have haux := splitOnAux_singleton c [] [] text.toList []
  rw [List.nil_append, List.nil_append, ofList_toList] at haux
  have hsep : ¬(ofList [c] == "") = true := fun h =>
    List.cons_ne_nil c [] (ofList_injective (beq_iff_eq.mp h))
  rw [splitOn, if_neg hsep]
  exact haux

theorem not_mem_of_mem_splitOn {text piece : String} {c : Char}
    (h : piece ∈ text.splitOn (ofList [c])) : c ∉ piece.toList := by
  rw [splitOn_singleton, List.mem_map] at h
  obtain ⟨chars, hchars, rfl⟩ := h
  rw [toList_ofList]
  generalize text.toList = all at hchars
  induction all generalizing chars with
  | nil =>
      rw [List.splitOn_nil, List.mem_singleton] at hchars
      exact hchars ▸ List.not_mem_nil
  | cons d rest ih =>
      rw [List.splitOn_cons_eq_if_modifyHead] at hchars
      split_ifs at hchars with hd
      · rcases List.mem_cons.mp hchars with rfl | hlater
        · exact List.not_mem_nil
        · exact ih chars hlater
      · obtain ⟨first, pieces, hpieces⟩ := List.exists_cons_of_ne_nil (List.splitOn_ne_nil c rest)
        rw [hpieces, List.modifyHead_cons] at hchars
        rcases List.mem_cons.mp hchars with rfl | hlater
        · intro hc
          rcases List.mem_cons.mp hc with rfl | hfirst
          · exact hd (beq_self_eq_true c)
          · exact ih first (hpieces ▸ List.mem_cons_self) hfirst
        · exact ih chars (hpieces ▸ List.mem_cons_of_mem first hlater)

/-- Pieces without the character, put together around it, are what the text is cut into. -/
theorem splitOn_intercalate {pieces : List String} (c : Char) (hne : pieces ≠ [])
    (h : ∀ piece ∈ pieces, c ∉ piece.toList) :
    ((ofList [c]).intercalate pieces).splitOn (ofList [c]) = pieces := by
  have hchars : ∀ chars ∈ pieces.map toList, c ∉ chars := by
    intro chars hchars
    obtain ⟨piece, hpiece, rfl⟩ := List.mem_map.mp hchars
    exact h piece hpiece
  rw [splitOn_singleton, toList_intercalate, toList_ofList,
    List.splitOn_intercalate c hchars (mt List.map_eq_nil_iff.mp hne), List.map_map]
  simp

end Text
end Bytecode
