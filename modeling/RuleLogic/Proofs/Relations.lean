import Mathlib.Data.List.Chain
import Mathlib.Data.Option.NAry
import RuleLogic.Proofs.EagerOrder

/-!
# Relations between values

Two strings are ordered as texts, every other pair as the numbers that are read from its values.
Each of the two orders is a total preorder, so a pair turned around is ordered the other way round,
and a relation is transitive wherever one of the two orders applies to all pairs.

    w.order? v = (v.order? w).map Ordering.swap                                  (order?_swap)
    chain accepted values ↔ all neighbours are ordered in an accepted way        (chain_iff)
    OrderedAlike [u, v, w] → the relations are transitive on u, v, w             (order?_trans)
-/

namespace RuleLogic

/-! ## The two orders -/

instance Double.transCmp_order : Std.TransCmp Double.order where
  eq_swap := Std.OrientedOrd.eq_swap
  isLE_trans hxy hyz := Std.TransOrd.isLE_trans hxy hyz

namespace Value

variable {u v w : Value}

theorem exists_str_of_kind (h : v.kind = .string) : ∃ s, v = .str s := by
  cases v with
  | str s => exact ⟨s, rfl⟩
  | _ => cases h

/-- A pair that is not of two strings is ordered by numbers, if both values are read as one. -/
theorem order?_eq_map₂ (h : ¬ (v.kind = .string ∧ w.kind = .string)) :
    v.order? w = Option.map₂ Double.order v.orderNumber? w.orderNumber? := by
  unfold order?
  split
  · exact absurd ⟨rfl, rfl⟩ h
  · cases v.orderNumber? with
    | none => rfl
    | some x => cases w.orderNumber? <;> rfl

/-- A pair turned around is ordered the other way round, or still not ordered. -/
theorem order?_swap (v w : Value) : w.order? v = (v.order? w).map Ordering.swap := by
  by_cases h : v.kind = .string ∧ w.kind = .string
  · obtain ⟨s, rfl⟩ := exists_str_of_kind h.1
    obtain ⟨t, rfl⟩ := exists_str_of_kind h.2
    exact congrArg some Std.OrientedOrd.eq_swap
  · rw [order?_eq_map₂ h, order?_eq_map₂ fun hwv => h hwv.symm, Option.map_map₂, Option.map₂_swap]
    refine congrArg (Option.map₂ · _ _) ?_
    funext x y
    exact Std.OrientedCmp.eq_swap

/-! ## Transitivity -/

/-- One of the two orders applies to all pairs of the values: all are strings, or one at most. -/
def OrderedAlike (values : List Value) : Prop :=
  (∀ v ∈ values, v.kind = .string) ∨ values.countP (·.kind = .string) ≤ 1

instance (values : List Value) : Decidable (OrderedAlike values) :=
  inferInstanceAs (Decidable (_ ∨ _))

/-- The string that a value is. -/
def string? : Value → Option String
  | .str s => some s
  | _ => none

theorem order?_eq_map₂_string? (hv : v.kind = .string) (hw : w.kind = .string) :
    v.order? w = Option.map₂ compare v.string? w.string? := by
  obtain ⟨s, rfl⟩ := exists_str_of_kind hv
  obtain ⟨t, rfl⟩ := exists_str_of_kind hw
  rfl

/-- Values that are ordered alike are ordered by one reading and one comparison. -/
theorem OrderedAlike.exists_reading (h : OrderedAlike [u, v, w]) :
    ∃ (α : Type) (cmp : α → α → Ordering) (reading : Value → Option α), Std.TransCmp cmp ∧
      u.order? v = Option.map₂ cmp (reading u) (reading v) ∧
      v.order? w = Option.map₂ cmp (reading v) (reading w) ∧
      u.order? w = Option.map₂ cmp (reading u) (reading w) := by
  rcases h with hall | hone
  · have hu : u.kind = .string := hall u (by simp)
    have hv : v.kind = .string := hall v (by simp)
    have hw : w.kind = .string := hall w (by simp)
    exact ⟨String, compare, string?, inferInstance, order?_eq_map₂_string? hu hv,
      order?_eq_map₂_string? hv hw, order?_eq_map₂_string? hu hw⟩
  · simp only [List.countP_cons, List.countP_nil, decide_eq_true_eq] at hone
    have huv : ¬ (u.kind = .string ∧ v.kind = .string) := by
      rintro ⟨hu, hv⟩
      rw [if_pos hu, if_pos hv] at hone
      omega
    have hvw : ¬ (v.kind = .string ∧ w.kind = .string) := by
      rintro ⟨hv, hw⟩
      rw [if_pos hv, if_pos hw] at hone
      omega
    have huw : ¬ (u.kind = .string ∧ w.kind = .string) := by
      rintro ⟨hu, hw⟩
      rw [if_pos hu, if_pos hw] at hone
      omega
    exact ⟨Double, Double.order, orderNumber?, inferInstance, order?_eq_map₂ huv,
      order?_eq_map₂ hvw, order?_eq_map₂ huw⟩

/-- Whether an order is accepted is transitive in every preorder. -/
def AcceptsTransitively (accepted : Ordering → Bool) : Prop :=
  ∀ {α : Type} (cmp : α → α → Ordering) [Std.TransCmp cmp] {x y z : α},
    accepted (cmp x y) = true → accepted (cmp y z) = true → accepted (cmp x z) = true

theorem acceptsTransitively_lt : AcceptsTransitively (· == .lt) := by
  intro α cmp _ x y z hxy hyz
  rw [beq_iff_eq] at hxy hyz ⊢
  exact Std.TransCmp.lt_trans hxy hyz

theorem acceptsTransitively_le : AcceptsTransitively (· != .gt) := by
  intro α cmp _ x y z hxy hyz
  rw [bne_iff_ne] at hxy hyz ⊢
  refine Ordering.isLE_iff_ne_gt.1 ?_
  exact Std.TransCmp.isLE_trans (Ordering.isLE_iff_ne_gt.2 hxy) (Ordering.isLE_iff_ne_gt.2 hyz)

theorem order?_trans {accepted : Ordering → Bool} (ha : AcceptsTransitively accepted)
    (h : OrderedAlike [u, v, w]) (huv : (u.order? v).any accepted = true)
    (hvw : (v.order? w).any accepted = true) : (u.order? w).any accepted = true := by
  obtain ⟨α, cmp, reading, _, hcmp_uv, hcmp_vw, hcmp_uw⟩ := h.exists_reading
  rw [hcmp_uv] at huv
  rw [hcmp_vw] at hvw
  rw [hcmp_uw]
  -- each of the three values is read, or one of the pairs has no order
  cases hu : reading u with
  | none => simp [hu] at huv
  | some x =>
    cases hv : reading v with
    | none => simp [hv] at huv
    | some y =>
      cases hw : reading w with
      | none => simp [hw] at hvw
      | some z =>
        simp only [hu, hv, hw, Option.map₂_some_some, Option.any_some] at huv hvw ⊢
        exact ha cmp huv hvw

end Value

/-! ## Chains -/

namespace Eager

variable {accepted accepted' : Ordering → Bool} {values : List Value}

theorem chain_iff : chain accepted values = true ↔
    values.IsChain fun v w => (v.order? w).any accepted = true := by
  induction values with
  | nil => simp [chain]
  | cons v rest ih =>
    cases rest with
    | nil => simp [chain]
    | cons w rest => rw [chain, Bool.and_eq_true, ih, List.isChain_cons_cons]

/-- A chain read backwards is a chain of the orders turned around. -/
theorem chain_reverse (h : ∀ o : Ordering, accepted' o.swap = accepted o) :
    chain accepted' values.reverse = chain accepted values := by
  have hturned (v w : Value) : (w.order? v).any accepted' = (v.order? w).any accepted := by
    rw [Value.order?_swap v w, Option.any_map]
    exact congrArg (Option.any · _) (funext h)
  rw [Bool.eq_iff_iff, chain_iff, chain_iff, List.isChain_reverse]
  simp only [hturned]

theorem chain_mono (h : ∀ o : Ordering, accepted o = true → accepted' o = true)
    (hc : chain accepted values = true) : chain accepted' values = true := by
  rw [chain_iff] at hc ⊢
  refine hc.imp fun v w hvw => ?_
  rw [Option.any_eq_true] at hvw ⊢
  obtain ⟨o, ho, hacc⟩ := hvw
  exact ⟨o, ho, h o hacc⟩

theorem chain_pair (v w : Value) : chain accepted [v, w] = (v.order? w).any accepted := by
  rw [chain, chain, Bool.and_true]
  exact nofun

end Eager

/-! ## The relational operators -/

/-- The operators that ask how neighbours are ordered, and the orders that each accepts. -/
inductive Operator.Relates : Operator → (Ordering → Bool) → Prop
  | lt : Relates .lt (· == .lt)
  | le : Relates .le (· != .gt)
  | gt : Relates .gt (· == .gt)
  | ge : Relates .ge (· != .lt)

section
variable {r : Registry} {data : Value} {op : Operator} {accepted : Ordering → Bool}
  {rules values : List Value}

open Eager

theorem Operator.Relates.answer_eq (h : op.Relates accepted)
    (hn : values.length = 2 ∨ values.length = 3) (hv : EvaluateTo r data rules values) :
    answer r data op rules = .ok (.bool (chain accepted values)) := by
  have hs : op.strategy = .eager := by cases h <;> rfl
  have hcount : op.arity.accepts values.length = true := by
    have harity : op.arity = .between 2 3 := by cases h <;> rfl
    rw [harity]
    exact Arity.accepts_between.2 (by omega)
  have happly : op.apply data values = .ofResult (.ok (.bool (chain accepted values))) := by
    cases h <;> rfl
  rw [answer_eq_apply hs hcount hv, happly]
  rfl

theorem Operator.Relates.answer_pair {P Q v w : Value} (h : op.Relates accepted)
    (hv : EvaluateTo r data [P, Q] [v, w]) :
    answer r data op [P, Q] = .ok (.bool ((v.order? w).any accepted)) := by
  rw [h.answer_eq (.inl rfl) hv, chain_pair]

/-- On three values that are ordered alike an operator's relation is transitive. -/
theorem Operator.Relates.trans {P Q S u v w : Value} (h : op.Relates accepted)
    (ha : Value.AcceptsTransitively accepted) (hv : EvaluateTo r data [P, Q, S] [u, v, w])
    (hk : Value.OrderedAlike [u, v, w]) (hPQ : answer r data op [P, Q] = .ok (.bool true))
    (hQS : answer r data op [Q, S] = .ok (.bool true)) :
    answer r data op [P, S] = .ok (.bool true) := by
  obtain ⟨hP, hQ, hS⟩ : (eval r P data).result = .ok u ∧ (eval r Q data).result = .ok v ∧
      (eval r S data).result = .ok w := by
    simpa [EvaluateTo] using hv
  rw [h.answer_pair (.cons hP (.cons hQ .nil))] at hPQ
  rw [h.answer_pair (.cons hQ (.cons hS .nil))] at hQS
  rw [h.answer_pair (.cons hP (.cons hS .nil))]
  simp only [Except.ok.injEq, Value.bool.injEq] at hPQ hQS ⊢
  exact Value.order?_trans ha hk hPQ hQS

end

/-- **The relational operators are consistent.**  Turning a pair around turns its order around, and
a pair without an order stays without one.  So `<` answers on two or three values what `>` answers
on them in reverse, `<=` what `>=` answers, and `<` implies `<=`.  On three values that are all
strings, or of which one at most is, both `<` and `<=` are transitive. -/
theorem relations_consistent (r : Registry) (data : Value) :
    (∀ v w : Value, w.order? v = (v.order? w).map Ordering.swap) ∧
    (∀ rules reversed values, values.length = 2 ∨ values.length = 3 →
      EvaluateTo r data rules values → EvaluateTo r data reversed values.reverse →
        (∃ b, answer r data .lt rules = .ok (.bool b) ∧
          answer r data .gt reversed = .ok (.bool b)) ∧
        (∃ b, answer r data .le rules = .ok (.bool b) ∧
          answer r data .ge reversed = .ok (.bool b)) ∧
        (answer r data .lt rules = .ok (.bool true) →
          answer r data .le rules = .ok (.bool true))) ∧
    (∀ P Q S u v w, EvaluateTo r data [P, Q, S] [u, v, w] → Value.OrderedAlike [u, v, w] →
      (answer r data .lt [P, Q] = .ok (.bool true) → answer r data .lt [Q, S] = .ok (.bool true) →
        answer r data .lt [P, S] = .ok (.bool true)) ∧
      (answer r data .le [P, Q] = .ok (.bool true) → answer r data .le [Q, S] = .ok (.bool true) →
        answer r data .le [P, S] = .ok (.bool true))) := by
  refine ⟨Value.order?_swap, ?_, ?_⟩
  · intro rules reversed values hn hv hr
    have hn' : values.reverse.length = 2 ∨ values.reverse.length = 3 := by
      rwa [List.length_reverse]
    refine ⟨⟨_, Operator.Relates.lt.answer_eq hn hv, ?_⟩,
      ⟨_, Operator.Relates.le.answer_eq hn hv, ?_⟩, fun hlt => ?_⟩
    · rw [Operator.Relates.gt.answer_eq hn' hr, Eager.chain_reverse]
      exact fun o => by cases o <;> rfl
    · rw [Operator.Relates.ge.answer_eq hn' hr, Eager.chain_reverse]
      exact fun o => by cases o <;> rfl
    · rw [Operator.Relates.lt.answer_eq hn hv] at hlt
      rw [Operator.Relates.le.answer_eq hn hv]
      simp only [Except.ok.injEq, Value.bool.injEq] at hlt ⊢
      exact Eager.chain_mono (fun o => by cases o <;> decide) hlt
  · intro P Q S u v w hv hk
    exact ⟨Operator.Relates.lt.trans Value.acceptsTransitively_lt hv hk,
      Operator.Relates.le.trans Value.acceptsTransitively_le hv hk⟩

theorem relations_consistent_mixed :
    let one := Value.num (.int 1 (by decide))
    let two := Value.str " 2.0"
    let three := Value.arr [.num (.int 3 (by decide))]
    (∃ b, answer .empty .null .lt [one, two, three] = .ok (.bool b) ∧
        answer .empty .null .gt [three, two, one] = .ok (.bool b)) ∧
      (∃ b, answer .empty .null .le [.obj [], one] = .ok (.bool b) ∧
        answer .empty .null .ge [one, .obj []] = .ok (.bool b)) ∧
      answer .empty .null .lt [one, two] = .ok (.bool true) ∧
      answer .empty .null .le [one, two] = .ok (.bool true) ∧
      answer .empty .null .lt [two, three] = .ok (.bool true) ∧
      answer .empty .null .lt [one, three] = .ok (.bool true) ∧
      two.order? one = (one.order? two).map Ordering.swap := by
  intro one two three
  have hlt : answer .empty .null .lt [one, two] = .ok (.bool true) := by decide +kernel
  have hlt' : answer .empty .null .lt [two, three] = .ok (.bool true) := by decide +kernel
  have heval : EvaluateTo .empty .null [one, two, three] [one, two, three] :=
    .cons rfl (.cons rfl (.cons rfl .nil))
  have hreversed : EvaluateTo .empty .null [three, two, one] [three, two, one] :=
    .cons rfl (.cons rfl (.cons rfl .nil))
  obtain ⟨hswap, hturned, htrans⟩ := relations_consistent .empty .null
  obtain ⟨h, -, -⟩ := hturned [one, two, three] [three, two, one] _ (.inr rfl) heval hreversed
  obtain ⟨-, h', -⟩ := hturned [.obj [], one] [one, .obj []] _ (.inl rfl)
    (.cons rfl (.cons rfl .nil)) (.cons rfl (.cons rfl .nil))
  obtain ⟨-, -, hle⟩ := hturned [one, two] [two, one] _ (.inl rfl)
    (.cons rfl (.cons rfl .nil)) (.cons rfl (.cons rfl .nil))
  have halike : Value.OrderedAlike [one, two, three] := by decide
  exact ⟨h, h', hlt, hle hlt, hlt',
    (htrans one two three one two three heval halike).1 hlt hlt', hswap one two⟩

end RuleLogic
