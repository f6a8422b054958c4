import RuleLogic.Proofs.Walking

/-!
# What a miss reports

A walk that misses reports the segments that it has followed, joined by dots, and why the next one
leads nowhere.  Since nothing is put in front of the first segment that is not empty, empty segments
at the beginning are left out of the report.  So the report is the part of the path that resolves,
unless two or more segments resolve and the first of them is empty.

    texts.foldl extend "" = ".".intercalate (texts.dropWhile String.isEmpty)   (foldl_extend_empty)
    the report is the part that resolves ↔ no empty segment is left out        (miss_reports_prefix)
-/

namespace RuleLogic

/-- Does the cause tell of the segment, by its text or as the index that it writes? -/
def MissCause.TellsOf (segment : String) : MissCause → Prop
  | .noKey key => key = segment
  | .indexOutOfRange i _ => DataPath.index? segment = some i
  | .notAnIndex text => text = segment
  | .primitive text _ => text = segment

namespace DataPath

/-! ## Stops -/

/-- A walk follows the segments in front to a value from which the next segment leads nowhere. -/
structure StopsAt (data : Value) (path : String) (before : List String) (segment : String)
    (v : Value) : Prop where
  ne_empty : path ≠ ""
  split : ∃ after, segments path = before ++ segment :: after
  follows : Follows data before v
  stuck : ∀ w, follow v segment ≠ .ok w

section
variable {data v : Value} {path segment reached : String} {texts before : List String}
  {miss : Miss} {cause : MissCause}

theorem tellsOf_of_follow (h : follow v segment = .error cause) : cause.TellsOf segment := by
  unfold follow at h
  split at h
  · split at h
    · cases h
    · cases h
      exact rfl
  · split at h
    · cases h
      exact rfl
    · next i hi =>
      split at h
      · cases h
      · cases h
        exact hi
  · cases h
    exact rfl

/-- Every miss stops somewhere. -/
theorem exists_stopsAt (h : walk data path = .error miss) :
    ∃ before segment v, StopsAt data path before segment v := by
  have hne : path ≠ "" := by
    rintro rfl
    cases h
  obtain ⟨before, segment, after, v, hsplit, hv, hcause, -⟩ := (walk_eq_error_iff hne).1 h
  refine ⟨before, segment, v, hne, ⟨after, hsplit⟩, hv, fun w hw => ?_⟩
  cases hw.symm.trans hcause

/-- A walk that stops misses, for the cause for which the next segment leads nowhere. -/
theorem StopsAt.walk_eq (h : StopsAt data path before segment v) :
    ∃ cause, follow v segment = .error cause ∧
      walk data path = .error ⟨before.foldl extend "", cause⟩ := by
  obtain ⟨hne, ⟨after, hsplit⟩, hv, hstuck⟩ := h
  cases hfollow : follow v segment with
  | ok w => exact absurd hfollow (hstuck w)
  | error cause =>
    exact ⟨cause, rfl,
      (walk_eq_error_iff hne).2 ⟨before, segment, after, v, hsplit, hv, hfollow, rfl⟩⟩

/-- The segments in front of the stop, joined to a path that is not empty, lead to it. -/
theorem StopsAt.walk_before (h : StopsAt data path before segment v)
    (hp : ".".intercalate before ≠ "") : walk data (".".intercalate before) = .ok v := by
  obtain ⟨-, ⟨after, hsplit⟩, hv, -⟩ := h
  have hne : before ≠ [] := by
    rintro rfl
    exact hp String.intercalate_nil
  have hdots : ∀ t ∈ before, '.' ∉ t.toList := by
    intro t ht
    have hmem : t ∈ segments path := by
      rw [hsplit]
      exact List.mem_append_left _ ht
    exact not_mem_of_mem_segments hmem
  rw [walk_eq_ok_iff hp, segments_intercalate hne hdots]
  exact hv

/-! ## Reports -/

theorem extend_empty (segment : String) : extend "" segment = segment := rfl

theorem extend_of_ne_empty (h : reached ≠ "") (segment : String) :
    extend reached segment = reached ++ "." ++ segment :=
  if_neg fun hempty => h (String.isEmpty_iff.1 hempty)

theorem foldl_extend_of_ne_empty (h : reached ≠ "") (texts : List String) :
    texts.foldl extend reached = ".".intercalate (reached :: texts) := by
  induction texts generalizing reached with
  | nil => exact String.intercalate_singleton.symm
  | cons t rest ih =>
    rw [List.foldl_cons, extend_of_ne_empty h, ih (append_dot_ne_empty reached t),
      String.intercalate_cons_append, String.intercalate_cons_cons]

/-- Segments are joined by dots from the first that is not empty. -/
theorem foldl_extend_empty (texts : List String) :
    texts.foldl extend "" = ".".intercalate (texts.dropWhile String.isEmpty) := by
  induction texts with
  | nil => exact String.intercalate_nil.symm
  | cons t rest ih =>
    rw [List.foldl_cons, extend_empty]
    by_cases ht : t = ""
    · subst ht
      rw [ih, List.dropWhile_cons_of_pos rfl]
    · have hfirst : ¬ t.isEmpty = true := fun hempty => ht (String.isEmpty_iff.1 hempty)
      rw [foldl_extend_of_ne_empty ht, List.dropWhile_cons_of_neg hfirst]

theorem length_intercalate_dropWhile_le (texts : List String) :
    (".".intercalate (texts.dropWhile String.isEmpty)).length ≤ (".".intercalate texts).length := by
  induction texts with
  | nil => exact Nat.le_refl _
  | cons t rest ih =>
    by_cases ht : t.isEmpty = true
    · rw [List.dropWhile_cons_of_pos ht]
      refine Nat.le_trans ih ?_
      cases rest with
      | nil => exact Nat.zero_le _
      | cons u more =>
        rw [String.intercalate_cons_cons, String.length_append]
        exact Nat.le_add_left _ _
    · have hkept : (t :: rest).dropWhile String.isEmpty = t :: rest :=
        List.dropWhile_cons_of_neg ht
      exact Nat.le_of_eq (by rw [hkept])

/-- Leaving out empty texts in front changes what is joined if something stands behind them. -/
theorem intercalate_dropWhile_eq_iff : ".".intercalate (texts.dropWhile String.isEmpty) =
    ".".intercalate texts ↔ ¬ (texts.head? = some "" ∧ 2 ≤ texts.length) := by
  match texts with
  | [] => simp
  | [t] =>
    by_cases ht : t = ""
    · subst ht
      simp
    · simp [ht]
  | t :: u :: more =>
    by_cases ht : t = ""
    · subst ht
      -- the dot behind the first text is missing
      have hle := length_intercalate_dropWhile_le (u :: more)
      have hlength : (".".intercalate ("" :: u :: more)).length =
          1 + (".".intercalate (u :: more)).length := by
        rw [String.intercalate_cons_cons, String.length_append]
        rfl
      rw [List.dropWhile_cons_of_pos rfl]
      constructor
      · intro h
        rw [h, hlength] at hle
        omega
      · intro h
        exact absurd ⟨rfl, by simp⟩ h
    · simp [ht]

end

end DataPath

open DataPath

/-- **A miss reports the part that resolved, less the empty segments in front.**  Every walk that
misses stops at a segment, and its miss tells why this one leads nowhere.  The segments in front of
it, joined by dots, lead to where the walk stopped unless the joined text is empty.  This text is
what the miss reports if and only if it is not the case that two or more segments resolve and the
first of them is empty; the empty segments in front are not reported. -/
theorem miss_reports_prefix (data : Value) (path : String) :
    (∀ miss, walk data path = .error miss →
      ∃ before segment v, StopsAt data path before segment v) ∧
    ∀ before segment v, StopsAt data path before segment v →
      ∃ miss, walk data path = .error miss ∧
        follow v segment = .error miss.cause ∧ miss.cause.TellsOf segment ∧
        (".".intercalate before ≠ "" → walk data (".".intercalate before) = .ok v) ∧
        (miss.reached = ".".intercalate before ↔ ¬ (before.head? = some "" ∧ 2 ≤ before.length)) ∧
        miss.reached = ".".intercalate (before.dropWhile String.isEmpty) := by
  refine ⟨fun miss => exists_stopsAt, fun before segment v h => ?_⟩
  obtain ⟨cause, hcause, hwalk⟩ := h.walk_eq
  have hreached := foldl_extend_empty before
  refine ⟨_, hwalk, hcause, tellsOf_of_follow hcause, h.walk_before, ?_, hreached⟩
  show before.foldl extend "" = _ ↔ _
  rw [hreached, intercalate_dropWhile_eq_iff]

theorem miss_reports_prefix_empty_key :
    let items := Value.arr [.null, .bool true]
    let data := Value.obj [("a", .obj [("", items)])]
    StopsAt data "a..7.b" ["a", ""] "7" items ∧
      ∃ miss, walk data "a..7.b" = .error miss ∧ miss.cause = .indexOutOfRange 7 2 ∧
        miss.reached = ".".intercalate ["a", ""] ∧ walk data miss.reached = .ok items := by
  intro items data
  have hfollow : follow items "7" = .error (.indexOutOfRange 7 2) := rfl
  have hstops : StopsAt data "a..7.b" ["a", ""] "7" items :=
    ⟨by decide, ⟨["b"], by decide⟩, .cons rfl (.cons rfl .nil),
      fun w hw => nomatch hfollow.symm.trans hw⟩
  obtain ⟨-, hmisses⟩ := miss_reports_prefix data "a..7.b"
  obtain ⟨miss, hwalk, hcause, -, hbefore, hiff, -⟩ := hmisses _ _ _ hstops
  have hreached : miss.reached = ".".intercalate ["a", ""] := hiff.2 (by decide)
  refine ⟨hstops, miss, hwalk, ?_, hreached, ?_⟩
  · exact (Except.error.inj (hfollow.symm.trans hcause)).symm
  · rw [hreached]
    exact hbefore (by decide)

/-- Below an empty key the report is no path to where the walk stopped. -/
theorem reached_leaves_out_empty_key :
    let inner := Value.obj []
    let data := Value.obj [("", .obj [("a", inner)])]
    StopsAt data ".a.x" ["", "a"] "x" inner ∧ ".".intercalate ["", "a"] = ".a" ∧
      walk data ".a" = .ok inner ∧ walk data ".a.x" = .error ⟨"a", .noKey "x"⟩ ∧
      walk data "a" = .error ⟨"", .noKey "a"⟩ := by
  intro inner data
  have hfollow : follow inner "x" = .error (.noKey "x") := rfl
  exact ⟨⟨by decide, ⟨[], by decide⟩, .cons rfl (.cons rfl .nil),
    fun w hw => nomatch hfollow.symm.trans hw⟩, by decide, rfl, rfl, rfl⟩

end RuleLogic
