import RuleLogic.DataPath

/-!
# Segments and paths

A path is split at its dots.  Texts without dots are the segments of the path that joins them, and
paths with a dot between them have the segments of both.  An index is read back from its decimal
digits if it has at most 64 bits.

    segments (".".intercalate texts) = texts                                (segments_intercalate)
    segments (p ++ "." ++ q) = segments p ++ segments q                          (segments_append)
    index? (toString i) = some i                                                (index?_toString)
-/

namespace RuleLogic.DataPath

/-! ## Splitting at dots -/

theorem splitDots_eq_splitOn (cs : List Char) : splitDots cs = cs.splitOn '.' := by
  induction cs with
  | nil => rfl
  | cons c rest ih =>
    rw [splitDots, ih, List.splitOn_cons_eq_if_modifyHead]
    by_cases hc : c = '.'
    · rw [if_pos hc, if_pos (beq_iff_eq.2 hc)]
    · rw [if_neg hc, if_neg (by simpa using hc)]
      cases hrest : rest.splitOn '.' with
      | nil => exact absurd hrest (List.splitOn_ne_nil '.' rest)
      | cons piece pieces => rfl

theorem splitDots_ne_nil (cs : List Char) : splitDots cs ≠ [] := by
  rw [splitDots_eq_splitOn]
  exact List.splitOn_ne_nil '.' cs

theorem not_mem_of_mem_splitDots {cs piece : List Char} (h : piece ∈ splitDots cs) :
    '.' ∉ piece := by
  induction cs generalizing piece with
  | nil =>
    obtain rfl := List.mem_singleton.1 h
    exact List.not_mem_nil
  | cons c rest ih =>
    rw [splitDots] at h
    split at h
    · rcases List.mem_cons.1 h with rfl | h
      · exact List.not_mem_nil
      · exact ih h
    · next hc =>
      split at h
      · next first more hrest =>
        rw [hrest] at ih
        rcases List.mem_cons.1 h with rfl | h
        · exact List.not_mem_cons_of_ne_of_not_mem (Ne.symm hc) (ih List.mem_cons_self)
        · exact ih (List.mem_cons_of_mem first h)
      · next hrest => exact absurd hrest (splitDots_ne_nil rest)

/-! ## Segments -/

variable {path segment : String} {texts : List String}

theorem not_mem_of_mem_segments (h : segment ∈ segments path) : '.' ∉ segment.toList := by
  obtain ⟨piece, hpiece, rfl⟩ := List.mem_map.1 h
  rw [String.toList_ofList]
  exact not_mem_of_mem_splitDots hpiece

/-- Texts without dots are the segments of the path that joins them. -/
theorem segments_intercalate (hne : texts ≠ []) (h : ∀ t ∈ texts, '.' ∉ t.toList) :
    segments (".".intercalate texts) = texts := by
  have hsplit : splitDots (".".intercalate texts).toList = texts.map String.toList := by
    rw [splitDots_eq_splitOn, String.toList_intercalate]
    refine List.splitOn_intercalate '.' (fun cs hcs => ?_) (by simpa using hne)
    obtain ⟨t, ht, rfl⟩ := List.mem_map.1 hcs
    exact h t ht
  rw [segments, hsplit]
  simp only [List.map_map, Function.comp_def, String.ofList_toList, List.map_id']

/-- Paths joined by a dot have the segments of both. -/
theorem segments_append (p q : String) : segments (p ++ "." ++ q) = segments p ++ segments q := by
  have hpath : (p ++ "." ++ q).toList = p.toList ++ '.' :: q.toList := by
    rw [String.toList_append, String.toList_append, List.append_assoc]
    rfl
  rw [segments, hpath, splitDots_eq_splitOn, List.splitOn_append_cons_self, List.map_append,
    ← splitDots_eq_splitOn, ← splitDots_eq_splitOn]
  rfl

/-! ## Indexes -/

theorem toList_toString (i : Nat) : (toString i).toList = Nat.toDigits 10 i := by
  rw [Nat.toString_eq_repr, Nat.repr_eq_ofList_toDigits, String.toList_ofList]

/-- An index of at most 64 bits is read from its digits. -/
theorem index?_toString {i : Nat} (hi : i < UInt64.size) : index? (toString i) = some i := by
  have hdigit : ∀ c ∈ Nat.toDigits 10 i, c.isDigit :=
    fun c hc => Nat.isDigit_of_mem_toDigits (by decide) (by decide) hc
  have hplus : ∀ rest, Nat.toDigits 10 i ≠ '+' :: rest := by
    intro rest h
    have hfirst := hdigit '+' (h ▸ List.mem_cons_self)
    exact absurd hfirst (by decide)
  have hempty : (Nat.toDigits 10 i).isEmpty = false :=
    List.isEmpty_eq_false_iff.2 Nat.toDigits_ne_nil
  have hall : (Nat.toDigits 10 i).all Char.isDigit = true := List.all_eq_true.2 hdigit
  unfold index?
  rw [toList_toString]
  split
  · next heq => exact absurd heq (hplus _)
  · simp only [hempty, hall, Nat.ofDigitChars_ten_toDigits]
    exact if_pos (by simpa using hi)

end RuleLogic.DataPath
