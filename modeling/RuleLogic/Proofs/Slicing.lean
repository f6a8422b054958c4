import RuleLogic.Proofs.EagerOrder
import RuleLogic.Proofs.Literal
import RuleLogic.Proofs.Nearest

/-!
# Pieces of texts

`substr` takes indexes of any size, brings them into the range of 64 signed bits and does so again
with each sum.  In a text with fewer than `2 ^ 63` characters none of this shows: the piece is the
one that the indexes name without any bounds.  In every text the piece lies within the text, and a
text is the piece up to an index and the piece from that index on.

    0 ≤ first ∧ first ≤ last ∧ last ≤ size                           (startIndex_le, endIndex_le)
    cut text (saturate start) (length.map saturate) = slice text start length      (cut_eq_slice)
    cut text 0 (some k) ++ cut text k none = text                               (cut_append_cut)
-/

namespace RuleLogic

namespace Text

/-! ## Pieces without bounds -/

/-- The index at which a piece starts: one from the end if it is negative, and never beyond either
end of the text. -/
def firstIndex (size start : Int) : Int :=
  max 0 (min size (if start < 0 then size + start else start))

/-- The index at which a piece ends: so many characters behind its start, or before the end of the
text if the length is negative. -/
def lastIndex (size first : Int) : Option Int → Int
  | none => size
  | some length => if length < 0 then max first (size + length) else min size (first + length)

/-- The piece of a text that a start and a length name. -/
def slice (text : List Char) (start : Int) (length : Option Int) : List Char :=
  let first := firstIndex text.length start
  text.extract first.toNat (lastIndex text.length first length).toNat

/-! ## Bounds -/

section
variable (size : Nat) (start : Int) (length : Option Int)

theorem startIndex_nonneg : 0 ≤ startIndex size (saturate start) := by
  unfold startIndex saturate
  split <;> omega

theorem startIndex_le : startIndex size (saturate start) ≤ size := by
  unfold startIndex saturate
  split <;> omega

/-- A start never needs more than 64 signed bits, so adding a length to it does not overtake it. -/
theorem startIndex_le_endIndex : startIndex size (saturate start) ≤
    endIndex size (startIndex size (saturate start)) (length.map saturate) := by
  have hle := startIndex_le size start
  have hbound : startIndex size (saturate start) ≤ 9223372036854775807 := by
    unfold startIndex saturate
    split <;> omega
  generalize startIndex size (saturate start) = first at hle hbound
  cases length with
  | none => exact hle
  | some length =>
    simp only [Option.map_some, endIndex, saturate]
    split <;> omega

theorem endIndex_le :
    endIndex size (startIndex size (saturate start)) (length.map saturate) ≤ size := by
  have hnonneg := startIndex_nonneg size start
  have hle := startIndex_le size start
  generalize startIndex size (saturate start) = first at hnonneg hle
  cases length with
  | none => exact Int.le_refl _
  | some length =>
    simp only [Option.map_some, endIndex, saturate]
    split <;> omega

/-! ## What saturation does not change -/

theorem startIndex_eq_firstIndex {size : Nat} (hs : size < 2 ^ 63) (start : Int) :
    startIndex size (saturate start) = firstIndex size start := by
  unfold startIndex firstIndex saturate
  split <;> split <;> omega

theorem endIndex_eq_lastIndex {size : Nat} {first : Int} (hs : size < 2 ^ 63) (h0 : 0 ≤ first)
    (h : first ≤ size) (length : Option Int) :
    endIndex size first (length.map saturate) = lastIndex size first length := by
  cases length with
  | none => rfl
  | some length =>
    simp only [Option.map_some, endIndex, lastIndex, saturate]
    split <;> split <;> omega

end

/-- The piece is the one without bounds in every text whose characters 63 bits can count. -/
theorem cut_eq_slice {text : List Char} (hs : text.length < 2 ^ 63) (start : Int)
    (length : Option Int) : cut text (saturate start) (length.map saturate) =
      slice text start length := by
  have hfirst := startIndex_eq_firstIndex hs start
  have hlast := endIndex_eq_lastIndex hs (startIndex_nonneg _ start) (startIndex_le _ start) length
  rw [hfirst] at hlast
  simp only [cut, slice, hfirst, hlast]
  rw [List.drop_take]

theorem saturate_saturate (n : Int) : saturate (saturate n) = saturate n := by
  unfold saturate
  omega

/-- The piece up to an index ends where the piece from that index on starts. -/
theorem endIndex_zero (size k : Int) :
    endIndex size 0 (some (saturate k)) = startIndex size (saturate k) := by
  by_cases h : saturate k < 0
  · simp only [endIndex, startIndex, if_pos h]
  · simp only [endIndex, startIndex, if_neg h, Int.zero_add, saturate_saturate]

theorem cut_append_cut (text : List Char) (k : Int) :
    cut text (saturate 0) (some (saturate k)) ++ cut text (saturate k) none = text := by
  have hzero : startIndex text.length (saturate 0) = 0 := by
    unfold startIndex saturate
    split <;> omega
  have hall : text.take ((text.length : Int)).toNat = text := by
    rw [Int.toNat_natCast, List.take_length]
  show (text.take (endIndex text.length (startIndex text.length (saturate 0)) _).toNat).drop
      (startIndex text.length (saturate 0)).toNat ++
    (text.take (text.length : Int).toNat).drop (startIndex text.length (saturate k)).toNat = text
  rw [hzero, endIndex_zero, hall]
  exact List.take_append_drop _ text

/-! ## Indexes as operands -/

/-- The integer that an operand holds, however large it is. -/
def integer? (v : Value) : Option Int := v.toNumber?.bind Double.toInt?

theorem index_of_integer? {op : Operator} {v : Value} {n : Int} (h : integer? v = some n) :
    index op v = .ok (saturate n) := by
  obtain ⟨x, hx, hn⟩ := Option.bind_eq_some_iff.1 h
  simp only [index, Arithmetic.operand, hx, bind, Except.bind, hn]
  rfl

/-- Every JSON integer is an index, and stands for itself or for an integer that is as far on the
same side of the texts with at most `2 ^ 53` characters. -/
theorem integer?_int {n : Int} (h : minInteger ≤ n ∧ n ≤ maxInteger) :
    ∃ m, integer? (.num (.int n h)) = some m ∧ (n.natAbs ≤ 2 ^ 53 → m = n) ∧
      (m = n ∨ 2 ^ 53 ≤ m ∧ 2 ^ 53 ≤ n ∨ m ≤ -2 ^ 53 ∧ n ≤ -2 ^ 53) := by
  obtain ⟨m, hm⟩ := Double.exists_value_ofInt_eq n
  have hself (hn : n.natAbs ≤ 2 ^ 53) : m = n := by
    have hside := Double.value_ofInt_side hm hn
    exact Int.le_antisymm (hside.2 (Int.le_refl n)) (hside.1 (Int.le_refl n))
  have hupper := Double.value_ofInt_side (k := 2 ^ 53) hm (by decide)
  have hlower := Double.value_ofInt_side (k := -2 ^ 53) hm (by decide)
  refine ⟨m, Double.toInt?_eq_some_iff.2 hm, hself, ?_⟩
  rcases Int.le_total (2 ^ 53) n with hn | hn
  · exact .inr (.inl ⟨hupper.1 hn, hn⟩)
  rcases Int.le_total n (-2 ^ 53) with hn' | hn'
  · exact .inr (.inr ⟨hlower.2 hn', hn'⟩)
  · exact .inl (hself (by omega))

/-- In a text with at most `2 ^ 53` characters such indexes and lengths name the same piece. -/
theorem slice_congr {m n : Int} (h : m = n ∨ 2 ^ 53 ≤ m ∧ 2 ^ 53 ≤ n ∨ m ≤ -2 ^ 53 ∧ n ≤ -2 ^ 53)
    {text : List Char} (hs : text.length ≤ 2 ^ 53) :
    (∀ length, slice text m length = slice text n length) ∧
      ∀ start, slice text start (some m) = slice text start (some n) := by
  constructor
  · intro length
    have hfirst : firstIndex text.length m = firstIndex text.length n := by
      unfold firstIndex
      split <;> split <;> omega
    simp only [slice, hfirst]
  · intro start
    have hnonneg : 0 ≤ firstIndex text.length start := Int.le_max_left 0 _
    have hlast : lastIndex text.length (firstIndex text.length start) (some m) =
        lastIndex text.length (firstIndex text.length start) (some n) := by
      generalize firstIndex text.length start = first at hnonneg
      simp only [lastIndex]
      split <;> split <;> omega
    simp only [slice, hlast]

section
variable {r : Registry} {data P S L v u w : Value} {start length : Int}

theorem answer_substr (hv : EvaluateTo r data [P, S] [v, u]) (hu : integer? u = some start) :
    answer r data .substr [P, S] =
      .ok (.str (String.ofList (cut v.plain (saturate start) none))) := by
  have hsubstr : substr .substr [v, u] =
      .ok (.str (String.ofList (cut v.plain (saturate start) none))) := by
    rw [substr, index_of_integer? hu]
    rfl
  rw [answer_eq_apply rfl rfl hv]
  exact hsubstr

theorem answer_substr_length (hv : EvaluateTo r data [P, S, L] [v, u, w])
    (hu : integer? u = some start) (hw : integer? w = some length) :
    answer r data .substr [P, S, L] =
      .ok (.str (String.ofList (cut v.plain (saturate start) (some (saturate length))))) := by
  have hsubstr : substr .substr [v, u, w] =
      .ok (.str (String.ofList (cut v.plain (saturate start) (some (saturate length))))) := by
    rw [substr, index_of_integer? hu, index_of_integer? hw]
    rfl
  rw [answer_eq_apply rfl rfl hv]
  exact hsubstr

/-- A text cut at an index and put together again is the text. -/
theorem answer_cat_substr {K : Value} {k : Int} (hv : EvaluateTo r data [P, K] [v, u])
    (hu : integer? u = some k) :
    answer r data .cat [.obj [("substr", .arr [P, .num (.int 0 (by decide)), K])],
      .obj [("substr", .arr [P, K])]] = .ok (.str (String.ofList v.plain)) := by
  obtain ⟨hP, hK⟩ : (eval r P data).result = .ok v ∧ (eval r K data).result = .ok u := by
    simpa [EvaluateTo] using hv
  have hzero : integer? (.num (.int 0 (by decide))) = some 0 := by decide +kernel
  have hfront := answer_substr_length (.cons hP (.cons (congrArg Outcome.result (eval_literal rfl))
    (.cons hK .nil))) hzero hu
  have hback := answer_substr hv hu
  have hcat : Text.join [.str (String.ofList (cut v.plain (saturate 0) (some (saturate k)))),
      .str (String.ofList (cut v.plain (saturate k) none))] = .str (String.ofList v.plain) := by
    have hplain (cs : List Char) : (Value.str (String.ofList cs)).plain = cs :=
      String.toList_ofList
    rw [Text.join, List.flatMap_cons, List.flatMap_cons, hplain, hplain, List.flatMap_nil,
      List.append_nil, cut_append_cut]
  have hpieces : EvaluateTo r data [.obj [("substr", .arr [P, .num (.int 0 (by decide)), K])],
      .obj [("substr", .arr [P, K])]] [.str (String.ofList (cut v.plain (saturate 0)
        (some (saturate k)))), .str (String.ofList (cut v.plain (saturate k) none))] :=
    .cons hfront (.cons hback .nil)
  rw [answer_eq_apply rfl rfl hpieces]
  exact congrArg Except.ok hcat

end

end Text

/-! ## Cutting -/

open Text

/-- **`substr` cuts out the piece that its indexes name.**  Whatever the indexes are, the bounds of
the piece are in order and within the text, and in a text with fewer than `2 ^ 63` characters, as
many as memory can hold, they are those of unbounded integers, counted from either end and moved to
the ends of the text.  At each index a string falls into two pieces that join to the string.  Every
JSON integer is an index; one beyond `2 ^ 53` in size is rounded, which does not show in texts with
up to `2 ^ 53` characters. -/
theorem substr_slices (r : Registry) (data : Value) :
    (∀ (size : Nat) (start : Int) (length : Option Int),
      let first := startIndex size (saturate start)
      let last := endIndex size first (length.map saturate)
      (0 ≤ first ∧ first ≤ last ∧ last ≤ size) ∧
        (size < 2 ^ 63 → first = firstIndex size start ∧ last = lastIndex size first length)) ∧
    (∀ P S v u start, EvaluateTo r data [P, S] [v, u] → integer? u = some start →
      v.plain.length < 2 ^ 63 →
        answer r data .substr [P, S] = .ok (.str (String.ofList (slice v.plain start none)))) ∧
    (∀ P S L v u w start length, EvaluateTo r data [P, S, L] [v, u, w] →
      integer? u = some start → integer? w = some length → v.plain.length < 2 ^ 63 →
        answer r data .substr [P, S, L] =
          .ok (.str (String.ofList (slice v.plain start (some length))))) ∧
    (∀ P K s u k, EvaluateTo r data [P, K] [.str s, u] → integer? u = some k →
      answer r data .cat [.obj [("substr", .arr [P, .num (.int 0 (by decide)), K])],
        .obj [("substr", .arr [P, K])]] = .ok (.str s)) ∧
    ∀ n h, ∃ m, integer? (.num (.int n h)) = some m ∧ (n.natAbs ≤ 2 ^ 53 → m = n) ∧
      ∀ text : List Char, text.length ≤ 2 ^ 53 →
        (∀ length, slice text m length = slice text n length) ∧
        ∀ start, slice text start (some m) = slice text start (some n) := by
  refine ⟨fun size start length => ⟨⟨startIndex_nonneg size start,
    startIndex_le_endIndex size start length, endIndex_le size start length⟩, ?_⟩,
    ?_, ?_, ?_, ?_⟩
  · intro hs
    exact ⟨startIndex_eq_firstIndex hs start,
      endIndex_eq_lastIndex hs (startIndex_nonneg size start) (startIndex_le size start) length⟩
  · intro P S v u start hv hu hs
    rw [answer_substr hv hu, ← cut_eq_slice hs start none]
    rfl
  · intro P S L v u w start length hv hu hw hs
    rw [answer_substr_length hv hu hw, ← cut_eq_slice hs start (some length)]
    rfl
  · intro P K s u k hv hu
    rw [answer_cat_substr hv hu, Value.plain, String.ofList_toList]
  · intro n h
    obtain ⟨m, hm, hself, hside⟩ := integer?_int h
    exact ⟨m, hm, hself, fun text hs => slice_congr hside hs⟩

/-- Indexes far beyond 64 bits, indexes from the end, and an integer that is rounded. -/
theorem substr_slices_beyond :
    let text := Value.str "jsonlogic"
    let far := Value.num (.double (.ofInt (-10 ^ 19)))
    let two := Value.str " 2 "
    let back := Value.num (.int (-5) (by decide))
    let most := Value.num (.int 18446744073709551615 (by decide))
    startIndex 9 (saturate (-10 ^ 19)) = firstIndex 9 (-10 ^ 19) ∧
      (∃ start length, Text.integer? far = some start ∧ Text.integer? two = some length ∧
        answer .empty .null .substr [text, far, two] =
          .ok (.str (String.ofList (slice "jsonlogic".toList start (some length))))) ∧
      answer .empty .null .substr [text, far, two] = .ok (.str "js") ∧
      answer .empty .null .substr [text, back] = .ok (.str "logic") ∧
      answer .empty .null .cat
          [.obj [("substr", .arr [text, .num (.int 0 (by decide)), far])],
            .obj [("substr", .arr [text, far])]] = .ok text ∧
      ∃ m, Text.integer? most = some m ∧
        slice text.plain m none = slice text.plain 18446744073709551615 none := by
  intro text far two back most
  obtain ⟨hbounds, htail, hpiece, hjoin, hint⟩ := substr_slices .empty .null
  have hfar : Text.integer? far = some (-10 ^ 19) := by decide +kernel
  have htwo : Text.integer? two = some 2 := by decide +kernel
  have hlength : text.plain.length < 2 ^ 63 := by decide +kernel
  have hcut := hpiece text far two text far two _ _ (.cons rfl (.cons rfl (.cons rfl .nil)))
    hfar htwo hlength
  have hfirst := ((hbounds 9 (-10 ^ 19) (some 2)).2 (by decide)).1
  refine ⟨hfirst, ⟨_, _, hfar, htwo, hcut⟩, hcut.trans (by decide +kernel), ?_, ?_, ?_⟩
  · obtain ⟨m, hback, hself, -⟩ := hint (-5) (by decide)
    rw [hself (by decide)] at hback
    exact (htail text back text back _ (.cons rfl (.cons rfl .nil)) hback hlength).trans
      (by decide +kernel)
  · exact hjoin text far "jsonlogic" far _ (.cons rfl (.cons rfl .nil)) hfar
  · obtain ⟨m, hm, -, hsame⟩ := hint 18446744073709551615 (by decide)
    exact ⟨m, hm, (hsame text.plain (by decide +kernel)).1 none⟩

end RuleLogic
