import RuleLogic.Proofs.Filtering

/-!
# Quantifiers

`some`, `none` and `all` search a collection for an item on which the body has one truth.  They stop
there, and they stop at an item on which the body fails; the items behind have no effect.  Where the
body succeeds on all items, the answers are what a `filter` shows: whether it keeps an item, whether
it keeps none, and whether it keeps all items of a collection that has any.

    the search stops at item → log = the logs up to item, result = what item decides
                                                                  (Quantifies.eval_of_stops)
    filter keeps ys of xs → some: ys ≠ [], none: ys = [], all: xs ≠ [] and ys = xs
    {none: [X, B]} does what {!: {some: [X, B]}} does                    (quantifiers_agree)
-/

namespace RuleLogic

open Scope

/-! ## Searches of a collection -/

section
variable {wanted : Bool} {body : Meaning} {item : Value} {items before after : List Value}

/-- A search goes on behind items on which the body has the other truth. -/
theorem anyItem_append_of_passed (h : ∀ b ∈ before, (body b).succeedsAs (!wanted) = true) :
    anyItem wanted body (before ++ after) =
      ⟨before.flatMap (fun b => (body b).log) ++ (anyItem wanted body after).log,
        (anyItem wanted body after).result⟩ := by
  induction before with
  | nil => rfl
  | cons b rest ih =>
    obtain ⟨hb, hrest⟩ := List.forall_mem_cons.1 h
    obtain ⟨v, hv, ht⟩ := Outcome.succeedsAs_iff.1 hb
    rw [List.cons_append, anyItem, Outcome.bind_ok hv, if_neg (by simp [ht]), ih hrest,
      List.flatMap_cons, List.append_assoc]

theorem log_anyItem_of_passed (h : ∀ item ∈ items, (body item).succeedsAs (!wanted) = true) :
    (anyItem wanted body items).log = items.flatMap fun item => (body item).log := by
  have hend : anyItem wanted body [] = ⟨[], .ok false⟩ := rfl
  rw [← List.append_nil items, anyItem_append_of_passed h, hend]
  simp only [List.append_nil]

/-- It stops at an item on which the body fails or has the wanted truth. -/
theorem anyItem_cons_of_stops (h : (body item).succeedsAs (!wanted) = false) :
    anyItem wanted body (item :: after) =
      ⟨(body item).log, (body item).result.map fun _ => true⟩ := by
  rw [anyItem]
  cases hr : (body item).result with
  | error e => exact Outcome.bind_error hr _
  | ok v =>
    rw [Outcome.succeedsAs_of_ok hr] at h
    have hv : v.truthy = wanted := by simpa using h
    rw [Outcome.bind_ok hr, if_pos (by simp [hv])]
    exact Outcome.ext (List.append_nil _) rfl

theorem result_anyItem (h : body.SucceedsOn items) : (anyItem wanted body items).result =
    .ok (items.any fun item => (body item).succeedsAs wanted) := by
  induction items with
  | nil => rfl
  | cons item rest ih =>
    obtain ⟨⟨v, hv⟩, hrest⟩ := Meaning.succeedsOn_cons_iff.1 h
    rw [anyItem, Outcome.bind_ok hv, List.any_cons, Outcome.succeedsAs_of_ok hv]
    cases v.truthy == wanted with
    | true => rfl
    | false => exact ih hrest

end

/-! ## What is kept -/

section
variable {body : Meaning} {items : List Value}

theorem any_truthy_iff :
    (items.any fun item => (body item).succeedsAs true) = true ↔ body.kept items ≠ [] := by
  rw [Meaning.kept, Ne, List.filter_eq_nil_iff]
  simp

theorem any_falsy_iff (h : body.SucceedsOn items) :
    (items.any fun item => (body item).succeedsAs false) = true ↔ body.kept items ≠ items := by
  have hother : ∀ item ∈ items, (body item).succeedsAs false = true ↔
      ¬ (body item).succeedsAs true = true := by
    intro item hi
    obtain ⟨v, hv⟩ := h item hi
    rw [Outcome.succeedsAs_of_ok hv, Outcome.succeedsAs_of_ok hv]
    cases v.truthy <;> decide
  rw [Meaning.kept, Ne, List.filter_eq_self, List.any_eq_true]
  simp only [not_forall, exists_prop]
  exact exists_congr fun item => and_congr_right (hother item)

end

/-! ## Quantifiers -/

/-- The operators that search a collection: the truth that they look for, the answer when an item
has it, and the answer on items of which none has. -/
inductive Operator.Quantifies : Operator → Bool → Bool → (List Value → Bool) → Prop
  | some : Quantifies .some true true fun _ => false
  | none : Quantifies .none true false fun _ => true
  | all : Quantifies .all false false fun items => !items.isEmpty

namespace Operator.Quantifies

variable {op : Operator} {wanted found : Bool} {missed : List Value → Bool} {r : Registry}
  {X B data item : Value} {items before after : List Value}

theorem eval_eq (h : op.Quantifies wanted found missed) :
    eval r (.obj [(op.name, .arr [X, B])]) data = (do
      let items ← collection op (eval r X) data
      let hit ← anyItem wanted (eval r B) items
      pure (.bool (if hit then found else missed items))) := by
  have hs : op.strategy = .scoped := by cases h <;> rfl
  have hn : op.arity.accepts (argumentsOf (.arr [X, B])).length = true := by cases h <;> rfl
  rw [eval_scoped op hs hn]
  cases h with
  | some | none =>
    refine bind_congr fun items => bind_congr fun hit => ?_
    cases hit <;> rfl
  | all =>
    refine bind_congr fun items => ?_
    cases items with
    | nil => rfl
    | cons item rest =>
      show anyItem false (eval r B) (item :: rest) >>= _ >>= _ = _
      rw [bind_assoc]
      refine bind_congr fun hit => ?_
      cases hit <;> rfl

/-- A source that is no array is refused in the name of the quantifier. -/
theorem eval_of_not_array {v : Value} (h : op.Quantifies wanted found missed)
    (hv : (eval r X data).result = .ok v) (hk : v.kind ≠ .array) :
    eval r (.obj [(op.name, .arr [X, B])]) data =
      ⟨(eval r X data).log, .error (.invalidArgument op.name (.notAnArray v.kind))⟩ := by
  rw [h.eval_eq, collection_of_not_array hv hk, Outcome.bind_error rfl]

/-- On an array the search is all that is done behind the source. -/
theorem eval_of_array (h : op.Quantifies wanted found missed)
    (hX : (eval r X data).result = .ok (.arr items)) :
    eval r (.obj [(op.name, .arr [X, B])]) data =
      ⟨(eval r X data).log ++ (anyItem wanted (eval r B) items).log,
        (anyItem wanted (eval r B) items).result.map fun hit =>
          .bool (if hit then found else missed items)⟩ := by
  rw [h.eval_eq, collection_of_array hX, Outcome.bind_ok rfl]
  cases hs : (anyItem wanted (eval r B) items).result with
  | error e => rw [Outcome.bind_error hs, Except.map]
  | ok hit => rw [Outcome.bind_ok hs, Except.map, Outcome.pure_def, List.append_nil]

/-- Where the body succeeds on all items, all that matters is whether one has the truth. -/
theorem answer_eq (h : op.Quantifies wanted found missed)
    (hX : (eval r X data).result = .ok (.arr items)) (hs : (eval r B).SucceedsOn items) :
    answer r data op [X, B] = .ok (.bool
      (if items.any fun item => (eval r B item).succeedsAs wanted then found
        else missed items)) := by
  rw [answer, h.eval_of_array hX, result_anyItem hs, Except.map]

/-- A quantifier evaluates the body up to the item that stops its search. -/
theorem eval_of_stops (h : op.Quantifies wanted found missed)
    (hX : (eval r X data).result = .ok (.arr (before ++ item :: after)))
    (hb : ∀ b ∈ before, (eval r B b).succeedsAs (!wanted) = true)
    (hi : (eval r B item).succeedsAs (!wanted) = false) :
    eval r (.obj [(op.name, .arr [X, B])]) data =
      ⟨(eval r X data).log ++ (before ++ [item]).flatMap fun b => (eval r B b).log,
        (eval r B item).result.map fun _ => .bool found⟩ := by
  have hlogs : (before ++ [item]).flatMap (fun b => (eval r B b).log) =
      before.flatMap (fun b => (eval r B b).log) ++ (eval r B item).log := by
    rw [List.flatMap_append, List.flatMap_singleton]
  rw [h.eval_of_array hX, anyItem_append_of_passed hb, anyItem_cons_of_stops hi, hlogs]
  cases (eval r B item).result <;> rfl

/-- Where no item stops the search, the body is evaluated on all of them. -/
theorem log_of_passed (h : op.Quantifies wanted found missed)
    (hX : (eval r X data).result = .ok (.arr items))
    (hp : ∀ item ∈ items, (eval r B item).succeedsAs (!wanted) = true) :
    (eval r (.obj [(op.name, .arr [X, B])]) data).log =
      (eval r X data).log ++ items.flatMap fun item => (eval r B item).log := by
  rw [h.eval_of_array hX, log_anyItem_of_passed hp]

end Operator.Quantifies

/-! ## Agreement -/

section
variable {r : Registry} {X B data w : Value}

/-- `none` finds what `some` does, and answers the opposite. -/
theorem eval_none_eq_negated_some (h : ∀ v, (eval r X data).result = .ok v → v.kind = .array) :
    eval r (.obj [("none", .arr [X, B])]) data =
      eval r (Value.negated (.obj [("some", .arr [X, B])])) data := by
  have hnone : eval r (.obj [("none", .arr [X, B])]) data = _ := Operator.Quantifies.none.eval_eq
  have hsome : eval r (.obj [("some", .arr [X, B])]) data = _ := Operator.Quantifies.some.eval_eq
  rw [eval_negated, hnone, hsome, collection_eq_collection .some h, Outcome.negated]
  simp only [bind_assoc, pure_bind]
  refine bind_congr fun items => bind_congr fun hit => ?_
  cases hit <;> rfl

/-- Where a filter succeeds, what it keeps shows all answers. -/
theorem answers_of_filter (h : answer r data .filter [X, B] = .ok w) : ∃ xs ys,
    (eval r X data).result = .ok (.arr xs) ∧ w = .arr ys ∧
      answer r data .some [X, B] = .ok (.bool (decide (ys ≠ []))) ∧
      answer r data .none [X, B] = .ok (.bool (decide (ys = []))) ∧
      answer r data .all [X, B] = .ok (.bool (decide (xs ≠ [] ∧ ys = xs))) := by
  obtain ⟨xs, hX, hs, rfl⟩ := answer_filter_ok_iff.1 h
  have hsome : (xs.any fun item => (eval r B item).succeedsAs true) =
      decide ((eval r B).kept xs ≠ []) := by
    rw [Bool.eq_iff_iff, any_truthy_iff, decide_eq_true_iff]
  have hall : (xs.any fun item => (eval r B item).succeedsAs false) =
      decide ((eval r B).kept xs ≠ xs) := by
    rw [Bool.eq_iff_iff, any_falsy_iff hs, decide_eq_true_iff]
  refine ⟨xs, _, hX, rfl, ?_, ?_, ?_⟩
  · rw [Operator.Quantifies.some.answer_eq hX hs, hsome]
    simp
  · rw [Operator.Quantifies.none.answer_eq hX hs, hsome]
    simp
  · rw [Operator.Quantifies.all.answer_eq hX hs, hall]
    cases xs <;> simp

end

/-- **The quantifiers agree.**  `none` does what the negation of `some` does, and only where the
source is no array the refusals name different operators.  Where a filter by the body succeeds,
`some` tells whether it keeps an item, `none` whether it keeps none, and `all` whether it keeps all
items of a collection that is not empty.  Each of the three evaluates the body up to the first item
on which it fails or decides: neither the outcome nor the log depends on the items behind. -/
theorem quantifiers_agree (r : Registry) (X B data : Value) :
    ((∀ v, (eval r X data).result = .ok v → v.kind = .array) →
      eval r (.obj [("none", .arr [X, B])]) data =
        eval r (Value.negated (.obj [("some", .arr [X, B])])) data) ∧
    (∀ v, (eval r X data).result = .ok v → v.kind ≠ .array →
      eval r (.obj [("none", .arr [X, B])]) data =
          ⟨(eval r X data).log, .error (.invalidArgument "none" (.notAnArray v.kind))⟩ ∧
        eval r (Value.negated (.obj [("some", .arr [X, B])])) data =
          ⟨(eval r X data).log, .error (.invalidArgument "some" (.notAnArray v.kind))⟩) ∧
    (∀ w, answer r data .filter [X, B] = .ok w → ∃ xs ys,
      (eval r X data).result = .ok (.arr xs) ∧ w = .arr ys ∧
        answer r data .some [X, B] = .ok (.bool (decide (ys ≠ []))) ∧
        answer r data .none [X, B] = .ok (.bool (decide (ys = []))) ∧
        answer r data .all [X, B] = .ok (.bool (decide (xs ≠ [] ∧ ys = xs)))) ∧
    ∀ (op : Operator) (wanted found : Bool) (missed : List Value → Bool),
      op.Quantifies wanted found missed →
      (∀ before item after, (eval r X data).result = .ok (.arr (before ++ item :: after)) →
        (∀ b ∈ before, (eval r B b).succeedsAs (!wanted) = true) →
        (eval r B item).succeedsAs (!wanted) = false →
        eval r (.obj [(op.name, .arr [X, B])]) data =
          ⟨(eval r X data).log ++ (before ++ [item]).flatMap fun b => (eval r B b).log,
            (eval r B item).result.map fun _ => .bool found⟩) ∧
      ∀ items, (eval r X data).result = .ok (.arr items) →
        (∀ item ∈ items, (eval r B item).succeedsAs (!wanted) = true) →
        (eval r (.obj [(op.name, .arr [X, B])]) data).log =
          (eval r X data).log ++ items.flatMap fun item => (eval r B item).log := by
  refine ⟨eval_none_eq_negated_some, fun v hv hk => ⟨?_, ?_⟩, fun w => answers_of_filter, ?_⟩
  · exact Operator.Quantifies.none.eval_of_not_array hv hk
  · have hsome : eval r (.obj [("some", .arr [X, B])]) data = _ :=
      Operator.Quantifies.some.eval_of_not_array hv hk
    rw [eval_negated, hsome, Outcome.negated, Outcome.bind_error rfl]
    rfl
  · intro op wanted found missed h
    exact ⟨fun before item after => h.eval_of_stops, fun items => h.log_of_passed⟩

theorem quantifiers_agree_second_fails :
    let X := Value.obj [("var", .str "items")]
    let B := Value.obj [("log", .obj [("var", .str "")])]
    let F := Value.obj [("filter", .arr [B, .bool true])]
    let data := Value.obj [("items", .arr [.arr [.null], .null, .arr []])]
    let falsy := Value.obj [("items", .arr [.null, .arr []])]
    (eval .empty X data).result = .ok (.arr [.arr [.null], .null, .arr []]) ∧
      eval .empty (.obj [("none", .arr [X, F])]) data =
        eval .empty (Value.negated (.obj [("some", .arr [X, F])])) data ∧
      (eval .empty X .null).result = .ok .null ∧
      eval .empty (.obj [("none", .arr [X, B])]) .null =
        ⟨[], .error (.invalidArgument "none" (.notAnArray .null))⟩ ∧
      answer .empty data .filter [X, B] = .ok (.arr [.arr [.null]]) ∧
      answer .empty data .all [X, B] = .ok (.bool false) ∧
      eval .empty (.obj [("all", .arr [X, F])]) data =
        ⟨[.arr [.null], .null], .error (.invalidArgument "filter" (.notAnArray .null))⟩ ∧
      (eval .empty (.obj [("none", .arr [X, B])]) falsy).log = [.null, .arr []] := by
  intro X B F data falsy
  have hdata : (eval .empty X data).result = .ok (.arr [.arr [.null], .null, .arr []]) := rfl
  have hnull : (eval .empty X .null).result = .ok .null := rfl
  have hfilter : answer .empty data .filter [X, B] = .ok (.arr [.arr [.null]]) := rfl
  have harray : ∀ v, (eval .empty X data).result = .ok v → v.kind = .array := by
    rintro v hv
    rw [hdata] at hv
    cases hv
    rfl
  obtain ⟨-, hrefused, -, -⟩ := quantifiers_agree .empty X B .null
  obtain ⟨-, -, hanswers, -⟩ := quantifiers_agree .empty X B data
  obtain ⟨hnegated, -, -, hstops⟩ := quantifiers_agree .empty X F data
  obtain ⟨-, -, -, hpassed⟩ := quantifiers_agree .empty X B falsy
  obtain ⟨xs, ys, hxs, hys, -, -, hall⟩ := hanswers _ hfilter
  cases hdata.symm.trans hxs
  cases hys
  refine ⟨hdata, hnegated harray, hnull, (hrefused .null hnull nofun).1, hfilter, hall, ?_, ?_⟩
  · exact (hstops .all false false _ .all).1 [.arr [.null]] .null [.arr []] hdata
      (List.forall_mem_singleton.2 rfl) rfl
  · exact (hpassed .none true false _ .none).2 [.null, .arr []] rfl (by decide)

end RuleLogic
