import RuleLogic.Proofs.EagerOrder
import RuleLogic.Proofs.Collections
import RuleLogic.Proofs.Searches

/-!
# Filtering

`filter` evaluates its body on every item, whatever it gave on the items before.  So it succeeds
exactly where the body does on all items, and it keeps the items on which the body is truthy,
unchanged and in order.

Of two filters one inside the other, the outer evaluates its body on what the inner keeps.  An `and`
of both bodies evaluates the second where the first is truthy, which is on the same items.  The two
forms evaluate the bodies in different orders, but they succeed alike and keep the same.

    {filter: [X, B]} succeeds with w ↔ B succeeds on all items of X, and w is what B keeps
                                                                         (answer_filter_ok_iff)
    {filter: [{filter: [X, p]}, q]} succeeds with w ↔ {filter: [X, {and: [p, q]}]} does
                                                                                 (filters_fuse)
-/

namespace RuleLogic

open Scope

/-- The body succeeds on each item. -/
def Meaning.SucceedsOn (body : Meaning) (items : List Value) : Prop :=
  ∀ item ∈ items, ∃ v, (body item).result = .ok v

/-- The items on which the body succeeds and is truthy. -/
def Meaning.kept (body : Meaning) (items : List Value) : List Value :=
  items.filter fun item => (body item).succeedsAs true

/-! ## One filter -/

section
variable {body : Meaning} {item v : Value} {items rest gathered : List Value}

theorem Meaning.succeedsOn_cons_iff :
    body.SucceedsOn (item :: rest) ↔ (∃ v, (body item).result = .ok v) ∧ body.SucceedsOn rest :=
  List.forall_mem_cons

theorem Meaning.SucceedsOn.on_kept (h : body.SucceedsOn items) :
    body.SucceedsOn (body.kept items) :=
  fun item hi => h item (List.mem_of_mem_filter hi)

theorem Meaning.kept_cons (h : (body item).result = .ok v) :
    body.kept (item :: rest) = if v.truthy then item :: body.kept rest else body.kept rest := by
  simp only [kept, List.filter_cons, Outcome.succeedsAs_of_ok h, beq_true]

/-- What is kept is kept again. -/
theorem Meaning.kept_kept : body.kept (body.kept items) = body.kept items := by
  simp only [kept, List.filter_filter, Bool.and_self]

/-- The walk succeeds exactly where the body does on all items. -/
theorem result_filterItems_ok_iff : (filterItems body items).result = .ok gathered ↔
    body.SucceedsOn items ∧ gathered = body.kept items := by
  induction items generalizing gathered with
  | nil =>
    show Except.ok [] = Except.ok gathered ↔ _
    simp [Meaning.SucceedsOn, Meaning.kept, eq_comm]
  | cons item rest ih =>
    rw [filterItems, Meaning.succeedsOn_cons_iff]
    constructor
    · intro h
      obtain ⟨v, hv, h⟩ := Outcome.bind_result_ok_iff.1 h
      obtain ⟨more, hmore, h⟩ := Outcome.bind_result_ok_iff.1 h
      obtain ⟨hrest, rfl⟩ := ih.1 hmore
      cases h
      exact ⟨⟨⟨v, hv⟩, hrest⟩, (Meaning.kept_cons hv).symm⟩
    · rintro ⟨⟨⟨v, hv⟩, hrest⟩, rfl⟩
      refine Outcome.bind_result_ok_iff.2 ⟨v, hv, ?_⟩
      refine Outcome.bind_result_ok_iff.2 ⟨body.kept rest, ih.2 ⟨hrest, rfl⟩, ?_⟩
      exact congrArg Except.ok (Meaning.kept_cons hv).symm

end

section
variable {r : Registry} {data X B w : Value}

/-- A filter succeeds exactly where its source gives an array on all of whose items the body
succeeds. -/
theorem answer_filter_ok_iff : answer r data .filter [X, B] = .ok w ↔
    ∃ items, (eval r X data).result = .ok (.arr items) ∧ (eval r B).SucceedsOn items ∧
      w = .arr ((eval r B).kept items) := by
  rw [answer, Operator.Gathers.filter.eval_eq]
  constructor
  · intro h
    obtain ⟨items, hitems, h⟩ := Outcome.bind_result_ok_iff.1 h
    obtain ⟨gathered, hgathered, h⟩ := Outcome.bind_result_ok_iff.1 h
    obtain ⟨hs, rfl⟩ := result_filterItems_ok_iff.1 hgathered
    cases h
    exact ⟨items, collection_result_ok_iff.1 hitems, hs, rfl⟩
  · rintro ⟨items, hitems, hs, rfl⟩
    refine Outcome.bind_result_ok_iff.2 ⟨items, collection_result_ok_iff.2 hitems, ?_⟩
    exact Outcome.bind_result_ok_iff.2 ⟨_, result_filterItems_ok_iff.2 ⟨hs, rfl⟩, rfl⟩

theorem answer_filter_of_error {e : EvalError} (h : (eval r X data).result = .error e) :
    answer r data .filter [X, B] = .error e := by
  rw [answer, Operator.Gathers.filter.eval_eq, collection_of_error h, Outcome.bind_error rfl]

end

/-! ## Two bodies -/

section
variable {r : Registry} {p q item : Value} {items : List Value}

theorem eval_and : eval r (.obj [("and", .arr [p, q])]) item =
    Branch.consult false [eval r p, eval r q] item :=
  congrFun (Operator.Searches.and.eval_eq (List.cons_ne_nil p [q])) item

/-- An `and` does what its first argument does unless that is truthy. -/
theorem eval_and_of_not_truthy (h : (eval r p item).succeedsAs true = false) :
    eval r (.obj [("and", .arr [p, q])]) item = eval r p item :=
  eval_and.trans (consult_of_not_succeedsAs h)

/-- Behind a first argument that is truthy an `and` comes to what its second argument does. -/
theorem result_eval_and_of_truthy (h : (eval r p item).succeedsAs true = true) :
    (eval r (.obj [("and", .arr [p, q])]) item).result = (eval r q item).result := by
  have hgoes : (eval r p item).succeedsAs (!false) = true := h
  rw [eval_and, consult_of_succeedsAs hgoes]
  rfl

theorem exists_ok_and_iff : (∃ v, (eval r (.obj [("and", .arr [p, q])]) item).result = .ok v) ↔
    (∃ v, (eval r p item).result = .ok v) ∧
      ((eval r p item).succeedsAs true = true → ∃ v, (eval r q item).result = .ok v) := by
  cases h : (eval r p item).succeedsAs true with
  | false => simp [eval_and_of_not_truthy h]
  | true =>
    obtain ⟨v, hv, -⟩ := Outcome.succeedsAs_iff.1 h
    simp [result_eval_and_of_truthy h, hv]

theorem succeedsAs_and : (eval r (.obj [("and", .arr [p, q])]) item).succeedsAs true =
    ((eval r p item).succeedsAs true && (eval r q item).succeedsAs true) := by
  cases h : (eval r p item).succeedsAs true with
  | false => rw [eval_and_of_not_truthy h, h, Bool.false_and]
  | true => rw [Outcome.succeedsAs, result_eval_and_of_truthy h, Bool.true_and, Outcome.succeedsAs]

/-- The second body has to succeed on what the first keeps, and on nothing else. -/
theorem succeedsOn_and_iff : (eval r (.obj [("and", .arr [p, q])])).SucceedsOn items ↔
    (eval r p).SucceedsOn items ∧ (eval r q).SucceedsOn ((eval r p).kept items) := by
  simp only [Meaning.SucceedsOn, Meaning.kept, exists_ok_and_iff, List.mem_filter, and_imp]
  exact forall₂_and

theorem kept_and : (eval r (.obj [("and", .arr [p, q])])).kept items =
    (eval r q).kept ((eval r p).kept items) := by
  simp only [Meaning.kept, List.filter_filter, succeedsAs_and, Bool.and_comm]

end

/-! ## Filters inside filters -/

/-- **Filters fuse.**  A filter of what another filter keeps succeeds with a value exactly where the
filter by the `and` of both bodies succeeds with it.  To filter once more with the same body has no
effect on the result, be it a value or an error, and a filter never gives anything but items of its
source, unchanged and in order. -/
theorem filters_fuse (r : Registry) (X p q data : Value) :
    (∀ w, answer r data .filter [.obj [("filter", .arr [X, p])], q] = .ok w ↔
      answer r data .filter [X, .obj [("and", .arr [p, q])]] = .ok w) ∧
    answer r data .filter [.obj [("filter", .arr [X, p])], p] = answer r data .filter [X, p] ∧
    ∀ B w, answer r data .filter [X, B] = .ok w → ∃ items gathered,
      (eval r X data).result = .ok (.arr items) ∧ w = .arr gathered ∧ gathered.Sublist items := by
  refine ⟨fun w => ?_, ?_, fun B w h => ?_⟩
  · rw [answer_filter_ok_iff, answer_filter_ok_iff]
    constructor
    · rintro ⟨gathered, hgathered, hq, rfl⟩
      obtain ⟨items, hitems, hp, hw⟩ := answer_filter_ok_iff.1 hgathered
      cases hw
      exact ⟨items, hitems, succeedsOn_and_iff.2 ⟨hp, hq⟩, congrArg Value.arr kept_and.symm⟩
    · rintro ⟨items, hitems, hand, rfl⟩
      obtain ⟨hp, hq⟩ := succeedsOn_and_iff.1 hand
      exact ⟨_, answer_filter_ok_iff.2 ⟨items, hitems, hp, rfl⟩, hq, congrArg Value.arr kept_and⟩
  · cases h : answer r data .filter [X, p] with
    | error e => exact answer_filter_of_error h
    | ok w =>
      obtain ⟨items, -, hp, rfl⟩ := answer_filter_ok_iff.1 h
      have hagain : Value.arr ((eval r p).kept items) =
          .arr ((eval r p).kept ((eval r p).kept items)) :=
        congrArg Value.arr Meaning.kept_kept.symm
      exact answer_filter_ok_iff.2 ⟨_, h, hp.on_kept, hagain⟩
  · obtain ⟨items, hitems, -, rfl⟩ := answer_filter_ok_iff.1 h
    exact ⟨items, _, hitems, rfl, List.filter_sublist⟩

theorem filters_fuse_later_fails :
    let X := Value.obj [("var", .str "items")]
    let p := Value.obj [("var", .str "")]
    let q := Value.obj [("some", .arr [p, p])]
    let items := [Value.null, .arr [.str "x"], .arr [.null], .arr []]
    let data := Value.obj [("items", .arr items)]
    answer .empty .null .some [p, p] = .error (.invalidArgument "some" (.notAnArray .null)) ∧
      answer .empty data .filter [.obj [("filter", .arr [X, p])], q] =
        .ok (.arr [.arr [.str "x"]]) ∧
      answer .empty data .filter [X, .obj [("and", .arr [p, q])]] = .ok (.arr [.arr [.str "x"]]) ∧
      answer .empty data .filter [.obj [("filter", .arr [X, p])], p] =
        .ok (.arr [.arr [.str "x"], .arr [.null]]) ∧
      ∃ items gathered, (eval .empty X data).result = .ok (.arr items) ∧
        Value.arr [.arr [.str "x"], .arr [.null]] = .arr gathered ∧ gathered.Sublist items := by
  intro X p q items data
  have hnested : answer .empty data .filter [.obj [("filter", .arr [X, p])], q] =
      .ok (.arr [.arr [.str "x"]]) := rfl
  have honce : answer .empty data .filter [X, p] = .ok (.arr [.arr [.str "x"], .arr [.null]]) := rfl
  obtain ⟨hfused, htwice, hsub⟩ := filters_fuse .empty X p q data
  exact ⟨rfl, hnested, (hfused _).1 hnested, htwice.trans honce, hsub p _ honce⟩

end RuleLogic
