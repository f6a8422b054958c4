import RuleLogic.Proofs.Equalities
import RuleLogic.Proofs.Relations

/-!
# Loose equality and the order

Loose equality reads an object through its text, the order does not read it at all.  The text of an
object begins with a brace, which begins no number, so both read the same number from every value or
both read none.  Where loose equality compares the numbers that it reads, it therefore holds exactly
where the order finds two values equal.

    v.looseNumber? = v.orderNumber?                                  (looseNumber?_eq_orderNumber?)
    v.looseEq w = true ↔ v.order? w = some .eq                                   (looseEq_iff_order)
-/

namespace RuleLogic

/-! ## Texts that hold no number -/

namespace Numeral

/-- The characters that a numeral may begin with. -/
def isStart (c : Char) : Bool := isSign c || c.isDigit || c == '.' || c == 'e' || c == 'E'

/-- What begins with another character is no numeral. -/
theorem scan_cons_of_not_isStart {c : Char} (h : isStart c = false) (text : List Char) :
    scan (c :: text) = none := by
  simp only [isStart, Bool.or_eq_false_iff] at h
  obtain ⟨⟨⟨⟨hsign, hdigit⟩, hpoint⟩, he⟩, hE⟩ := h
  have hpoint' : c ≠ '.' := ne_of_beq_false hpoint
  have hscanSign : scanSign (c :: text) = (none, c :: text) := by
    rw [scanSign, if_neg (by simp [hsign])]
  have hdrop : (c :: text).dropWhile Char.isDigit = c :: text := by
    rw [List.dropWhile_cons_of_neg (by simp [hdigit])]
  have hfraction : scanFraction (c :: text) = (none, c :: text) := by
    unfold scanFraction
    split
    · next heq => exact absurd (List.cons.inj heq).1 hpoint'
    · rfl
  have hexponent : scanExponent (c :: text) = none := by
    simp [scanExponent, he, hE]
  simp only [scan, hscanSign, hdrop, hfraction, hexponent, Option.map_none]

end Numeral

namespace NumericText

/-- A text keeps a first character that is no white space. -/
theorem exists_trim_cons {c : Char} (h : isWhiteSpace c = false) (text : List Char) :
    ∃ rest, trim (c :: text) = c :: rest := by
  have hfront : (c :: text).dropWhile isWhiteSpace = c :: text := by
    rw [List.dropWhile_cons_of_neg (by simp [h])]
  have hback : [c].dropWhile isWhiteSpace = [c] := by
    rw [List.dropWhile_cons_of_neg (by simp [h])]
  rw [trim, hfront, List.reverse_cons, List.dropWhile_append, hback]
  split
  · exact ⟨[], rfl⟩
  · exact ⟨(text.reverse.dropWhile isWhiteSpace).reverse, List.reverse_concat ..⟩

theorem read?_cons_of_not_isStart {c : Char} (hs : isWhiteSpace c = false)
    (hn : Numeral.isStart c = false) (text : List Char) : read? (c :: text) = none := by
  obtain ⟨rest, htrim⟩ := exists_trim_cons hs text
  rw [read?, htrim]
  simp only [Numeral.scan_cons_of_not_isStart hn, Option.bind_none]

end NumericText

/-! ## One reading -/

namespace Value

variable {v w : Value}

/-- The text of an object holds no number. -/
theorem read?_plain_obj (entries : List (String × Value)) :
    NumericText.read? (plain (.obj entries)) = none := by
  obtain ⟨rest, htext⟩ : ∃ rest, plain (.obj entries) = '{' :: rest := by
    cases entries with
    | nil => exact ⟨_, rfl⟩
    | cons entry more => exact ⟨_, rfl⟩
  rw [htext]
  exact NumericText.read?_cons_of_not_isStart (by decide) (by decide) rest

/-- Loose equality and the order read the same number from a value. -/
theorem looseNumber?_eq_orderNumber? (v : Value) : v.looseNumber? = v.orderNumber? := by
  cases v with
  | obj entries => exact read?_plain_obj entries
  | _ => rfl

theorem sameNumber_iff : v.sameNumber w = true ↔
    Option.map₂ Double.order v.orderNumber? w.orderNumber? = some .eq := by
  have hcompare (x y : Double) : x.sameValue y = true ↔ x.order y = .eq := by
    rw [Double.sameValue_iff]
    exact Std.LawfulEqOrd.compare_eq_iff_eq.symm
  rw [sameNumber, looseNumber?_eq_orderNumber?, looseNumber?_eq_orderNumber?]
  cases v.orderNumber? with
  | none => simp
  | some x =>
    cases w.orderNumber? with
    | none => simp
    | some y => simp [hcompare]

theorem looseEq_bool (x y : Bool) :
    (Value.bool x).looseEq (.bool y) = (Value.bool x).sameNumber (.bool y) := by
  cases x <;> cases y <;> decide +kernel

end Value

/-! ## Agreement -/

/-- Kinds without `null` of which an array or object stands beside a boolean or a number only. -/
structure Kind.Commensurable (k l : Kind) : Prop where
  left_ne_null : k ≠ .null
  right_ne_null : l ≠ .null
  left_composite : k = .array ∨ k = .object → l = .boolean ∨ l = .number
  right_composite : l = .array ∨ l = .object → k = .boolean ∨ k = .number

namespace Value

variable {v w : Value}

/-- Values that are not both strings are then compared by numbers. -/
theorem looseEq_eq_sameNumber (h : v.kind.Commensurable w.kind)
    (hs : ¬ (v.kind = .string ∧ w.kind = .string)) : v.looseEq w = v.sameNumber w := by
  by_cases hk : v.kind = w.kind
  · cases v with
    | null => exact absurd rfl h.left_ne_null
    | str s => exact absurd ⟨rfl, hk.symm⟩ hs
    | arr items => rcases h.left_composite (.inl rfl) with hw | hw <;> exact nomatch hk.trans hw
    | obj entries => rcases h.left_composite (.inr rfl) with hw | hw <;> exact nomatch hk.trans hw
    | bool x =>
      cases w with
      | bool y => exact looseEq_bool x y
      | _ => cases hk
    | num a =>
      obtain ⟨b, rfl⟩ := exists_num_of_kind hk.symm
      rfl
  · have htable : v.kind.comparison w.kind = .numbers := by
      obtain ⟨hv, hw, hvw, hwv⟩ := h
      generalize v.kind = k at *
      generalize w.kind = l at *
      cases k <;> cases l <;> simp_all [Kind.comparison]
    rw [looseEq_of_kind_ne hk, htable]

/-- Loose equality holds where the order finds two values equal. -/
theorem looseEq_iff_order? (h : v.kind.Commensurable w.kind) :
    v.looseEq w = true ↔ v.order? w = some .eq := by
  by_cases hs : v.kind = .string ∧ w.kind = .string
  · obtain ⟨s, rfl⟩ := exists_str_of_kind hs.1
    obtain ⟨t, rfl⟩ := exists_str_of_kind hs.2
    show (s == t) = true ↔ some (compare s t) = some .eq
    rw [beq_iff_eq, Option.some.injEq, Std.LawfulEqOrd.compare_eq_iff_eq]
  · rw [looseEq_eq_sameNumber h hs, sameNumber_iff, order?_eq_map₂ hs]

end Value

/-- **Loose equality and the order agree.**  Of two values that are not `null`, where an array or
object stands beside a boolean or a number only, loose equality holds exactly when the order finds
them equal.  On rules with these values `==` is therefore true exactly when `<=` and `>=` are both
true, and no two of `<`, `==` and `>` are. -/
theorem looseEq_iff_order (v w : Value) (h : v.kind.Commensurable w.kind) :
    (v.looseEq w = true ↔ v.order? w = some .eq) ∧
    ∀ (r : Registry) (data P Q : Value), EvaluateTo r data [P, Q] [v, w] →
      ∃ lt le eq ge gt : Bool,
        answer r data .lt [P, Q] = .ok (.bool lt) ∧ answer r data .le [P, Q] = .ok (.bool le) ∧
        answer r data .looseEq [P, Q] = .ok (.bool eq) ∧
        answer r data .ge [P, Q] = .ok (.bool ge) ∧ answer r data .gt [P, Q] = .ok (.bool gt) ∧
        (eq = true ↔ le = true ∧ ge = true) ∧
        ¬ (lt = true ∧ eq = true) ∧ ¬ (lt = true ∧ gt = true) ∧ ¬ (eq = true ∧ gt = true) := by
  have heq := Value.looseEq_iff_order? h
  refine ⟨heq, fun r data P Q hv => ?_⟩
  refine ⟨_, _, v.looseEq w, _, _, Operator.Relates.lt.answer_pair hv,
    Operator.Relates.le.answer_pair hv, answer_eq_apply rfl rfl hv,
    Operator.Relates.ge.answer_pair hv, Operator.Relates.gt.answer_pair hv, ?_⟩
  rw [heq]
  cases v.order? w with
  | none => simp
  | some o => cases o <;> simp

theorem looseEq_iff_order_wrapped :
    let v := Value.arr [.arr [.str " 2.50"]]
    let w := Value.num (.double ⟨false, 5 * 2 ^ 1073, by decide +kernel, by decide +kernel⟩)
    v.kind.Commensurable w.kind ∧ v.looseEq w = true ∧ v.order? w = some .eq ∧
      ∃ lt le eq ge gt : Bool,
        answer .empty .null .lt [v, w] = .ok (.bool lt) ∧
        answer .empty .null .le [v, w] = .ok (.bool le) ∧
        answer .empty .null .looseEq [v, w] = .ok (.bool eq) ∧
        answer .empty .null .ge [v, w] = .ok (.bool ge) ∧
        answer .empty .null .gt [v, w] = .ok (.bool gt) ∧
        (eq = true ↔ le = true ∧ ge = true) ∧
        ¬ (lt = true ∧ eq = true) ∧ ¬ (lt = true ∧ gt = true) ∧ ¬ (eq = true ∧ gt = true) := by
  intro v w
  have h : v.kind.Commensurable w.kind := ⟨nofun, nofun, fun _ => .inr rfl, nofun⟩
  have hloose : v.looseEq w = true := by decide +kernel
  obtain ⟨hiff, hall⟩ := looseEq_iff_order v w h
  exact ⟨h, hloose, hiff.1 hloose, hall .empty .null v w (.cons rfl (.cons rfl .nil))⟩

end RuleLogic
