import RuleLogic.Proofs.Collections
import RuleLogic.Proofs.Literal

/-!
# Collections gathered by `reduce`

`map` and `filter` are folds: a `reduce` that starts with the empty list and, at every item, puts
behind the accumulator what the operator makes of this item alone does the same, with the same
failures and the same log.  Only a source that is no array tells the two apart, because its refusal
names the operator.

    eval r (appendCurrent op B) on (acc, item) = acc ++ what op makes of [item]
                                                                          (eval_appendCurrent)
    reduceItems step (.arr acc) items = acc ++ what op makes of items     (reduceItems_eq_gather)
    eval r {op: [X, B]} data = eval r (asReduce op X B) data              (gather_eq_reduce)
-/

namespace RuleLogic

open Scope

/-! ## The rules -/

/-- The rule that puts behind the accumulator what an operator makes of the current item alone. -/
def Value.appendCurrent (op : Operator) (B : Value) : Value :=
  .obj [("merge", .arr [.obj [("var", .str "accumulator")],
    .obj [(op.name, .arr [.arr [.obj [("var", .str "current")]], B])]])]

/-- An operator's walk over a collection written as a `reduce` that starts with the empty list. -/
def Value.asReduce (op : Operator) (X B : Value) : Value :=
  .obj [("reduce", .arr [X, B.appendCurrent op, .arr []])]

/-! ## The data of a reducer -/

section
variable {r : Registry} {data v : Value}

/-- A path without a default gives what it leads to, `null` included. -/
theorem eval_path {path : String} (h : DataPath.walk data path = .ok v) :
    eval r (.obj [("var", .str path)]) data = pure v := by
  have hlist : eval r (.obj [("var", .str path)]) = eval r (.obj [("var", .arr [.str path])]) :=
    (eval_rule r "var" (.str path) []).trans (eval_rule r "var" (.arr [.str path]) []).symm
  have hvar : eval r (.obj [(Operator.var.name, .arr (.str path :: []))]) data =
      pure (((Lookup.present? data path).orElse fun _ => none).getD .null) :=
    eval_var rfl nofun (Nat.zero_le 1)
  rw [hlist]
  refine hvar.trans (congrArg pure ?_)
  -- a `null` does not count as present, and the default that is missing is `null` as well
  cases hp : Lookup.present? data path with
  | some w =>
    have hw := (present?_eq_some_iff.1 hp).1
    rw [h] at hw
    cases hw
    rfl
  | none =>
    by_cases hv : v = .null
    · rw [hv]
      rfl
    · rw [present?_eq_some_iff.2 ⟨h, hv⟩] at hp
      cases hp

theorem eval_accumulator (acc item : Value) :
    eval r (.obj [("var", .str "accumulator")]) (reduceScope acc item) = pure acc :=
  eval_path rfl

theorem eval_current (acc item : Value) :
    eval r (.obj [("var", .str "current")]) (reduceScope acc item) = pure item :=
  eval_path rfl

theorem eval_merge (P Q : Value) : eval r (.obj [("merge", .arr [P, Q])]) data = (do
    let p ← eval r P data
    let q ← eval r Q data
    pure (.arr (Eager.merge [p, q]))) := by
  have heager : eval r (.obj [(Operator.merge.name, .arr [P, Q])]) data =
      evalEach data [eval r P, eval r Q] >>= Operator.merge.apply data :=
    eval_eager rfl rfl data
  refine heager.trans ?_
  simp only [evalEach, bind_assoc, pure_bind]
  rfl

end

/-! ## Steps and runs -/

section
variable {op : Operator} {walk : Meaning → List Value → Outcome (List Value)}

/-- One step: the accumulator stays in front of what the operator makes of the item. -/
theorem eval_appendCurrent (h : op.Gathers walk) (r : Registry) (B item : Value)
    (acc : List Value) :
    eval r (B.appendCurrent op) (reduceScope (.arr acc) item) = (do
      let gathered ← walk (eval r B) [item]
      pure (.arr (acc ++ gathered))) := by
  have hitems : collection op (eval r (.arr [.obj [("var", .str "current")]]))
      (reduceScope (.arr acc) item) = pure [item] := by
    rw [collection_arr, List.map_singleton, evalEach, eval_current]
    rfl
  have hmerge (gathered : List Value) : Eager.merge [.arr acc, .arr gathered] = acc ++ gathered :=
    congrArg (acc ++ ·) (List.append_nil gathered)
  rw [Value.appendCurrent, eval_merge, eval_accumulator, h.eval_eq, hitems]
  simp only [pure_bind, bind_assoc, hmerge]

/-- A run: what the steps add up to is what the operator makes of all items. -/
theorem reduceItems_eq_gather (h : op.Gathers walk) (r : Registry) (B : Value)
    (items acc : List Value) :
    reduceItems (eval r (B.appendCurrent op)) (.arr acc) items = (do
      let gathered ← walk (eval r B) items
      pure (.arr (acc ++ gathered))) := by
  -- on the items, for every accumulator: each step hands a longer one to the next
  induction items generalizing acc with
  | nil => rw [h.walk_nil, pure_bind, List.append_nil, reduceItems]
  | cons item rest ih =>
    rw [reduceItems, eval_appendCurrent h, h.walk_cons (eval r B) item rest]
    simp only [bind_assoc, pure_bind, ih, List.append_assoc]

theorem eval_asReduce (h : op.Gathers walk) (r : Registry) (X B data : Value) :
    eval r (X.asReduce op B) data = (do
      let items ← collection .reduce (eval r X) data
      let gathered ← walk (eval r B) items
      pure (.arr gathered)) := by
  have hempty : eval r (.arr []) data = pure (.arr []) := eval_literal rfl
  rw [Value.asReduce, eval_reduce, hempty]
  simp only [pure_bind, reduceItems_eq_gather h, List.nil_append]

end

/-! ## Both forms -/

/-- **`map` and `filter` are folds.**  Where the source gives an array or fails, the operator has
the outcome of the `reduce` that appends what the operator makes of one item after the other.
Where the source gives anything else, both refuse it with the same log, each in its own name. -/
theorem gather_eq_reduce (r : Registry) (op : Operator) (X B data : Value)
    (ho : op = .map ∨ op = .filter) :
    ((∀ v, (eval r X data).result = .ok v → v.kind = .array) →
      eval r (.obj [(op.name, .arr [X, B])]) data = eval r (X.asReduce op B) data) ∧
    ∀ v, (eval r X data).result = .ok v → v.kind ≠ .array →
      eval r (.obj [(op.name, .arr [X, B])]) data =
          ⟨(eval r X data).log, .error (.invalidArgument op.name (.notAnArray v.kind))⟩ ∧
        eval r (X.asReduce op B) data =
          ⟨(eval r X data).log, .error (.invalidArgument "reduce" (.notAnArray v.kind))⟩ := by
  obtain ⟨walk, h⟩ : ∃ walk, op.Gathers walk := by
    rcases ho with rfl | rfl
    · exact ⟨_, .map⟩
    · exact ⟨_, .filter⟩
  rw [h.eval_eq, eval_asReduce h]
  refine ⟨fun hX => ?_, fun v hv hk => ⟨?_, ?_⟩⟩
  · rw [collection_eq_collection .reduce hX]
  · rw [collection_of_not_array hv hk, Outcome.bind_error rfl]
  · rw [collection_of_not_array hv hk, Outcome.bind_error rfl]
    rfl

theorem gather_eq_reduce_log :
    let source := Value.obj [("var", .str "items")]
    let body := Value.obj [("log", .obj [("var", .str "")])]
    let items := [Value.null, .arr [.arr [], .null], .obj [("current", .null)]]
    let data := Value.obj [("items", .arr items)]
    (eval .empty source data).result.toOption = some (.arr items) ∧
      eval .empty (.obj [("filter", .arr [source, body])]) data =
        eval .empty (source.asReduce .filter body) data ∧
      (eval .empty (source.asReduce .filter body) data).log = items ∧
      (eval .empty (source.asReduce .filter body) data).result.toOption =
        some (.arr items.tail) ∧
      (eval .empty source .null).result.toOption = some .null ∧
      eval .empty (.obj [("map", .arr [source, body])]) .null =
        ⟨[], .error (.invalidArgument "map" (.notAnArray .null))⟩ ∧
      eval .empty (source.asReduce .map body) .null =
        ⟨[], .error (.invalidArgument "reduce" (.notAnArray .null))⟩ := by
  intro source body items data
  have hitems : (eval .empty source data).result = .ok (.arr items) := rfl
  have hnull : (eval .empty source .null).result = .ok .null := rfl
  have harray : ∀ v, (eval .empty source data).result = .ok v → v.kind = .array := by
    rintro v hv
    rw [hitems] at hv
    cases hv
    rfl
  obtain ⟨hfilter, -⟩ := gather_eq_reduce .empty .filter source body data (.inr rfl)
  obtain ⟨-, hmap⟩ := gather_eq_reduce .empty .map source body .null (.inl rfl)
  obtain ⟨hrefused, hrefused'⟩ := hmap .null hnull nofun
  exact ⟨rfl, hfilter harray, rfl, rfl, rfl, hrefused, hrefused'⟩

end RuleLogic
