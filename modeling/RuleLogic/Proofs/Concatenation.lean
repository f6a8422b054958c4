import RuleLogic.Proofs.Accumulation
import RuleLogic.Proofs.Congruence
import RuleLogic.Proofs.EagerOrder

/-!
# Concatenated collections

A walk over one collection behind another goes on where the walk over the first has ended.  So
`map` and `filter` may be applied to each of two arrays before they are joined, and a `reduce` over
both is one over the second that starts with the value to which one over the first has come.  What
changes is when the second source is evaluated, and only the log shows that.

    {map: [{merge: [A, B]}, f]} comes to what {merge: [{map: [A, f]}, {map: [B, f]}]} does
    {reduce: [{merge: [A, B]}, f, I]} comes to what {reduce: [B, f, {reduce: [A, f, I]}]} does
                                                                          (scopes_distribute)
-/

namespace RuleLogic

open Scope

/-- A walk carries its value from one collection into the next. -/
theorem reduceItems_append (body : Meaning) (accumulator : Value) (xs ys : List Value) :
    reduceItems body accumulator (xs ++ ys) = (do
      let next ← reduceItems body accumulator xs
      reduceItems body next ys) := by
  induction xs generalizing accumulator with
  | nil => rw [List.nil_append, reduceItems, pure_bind]
  | cons item rest ih =>
    rw [List.cons_append, reduceItems, reduceItems, bind_assoc]
    exact bind_congr fun next => ih next

section
variable {r : Registry} {data A B X I body : Value} {items xs ys : List Value}

/-! ## Results -/

/-- Two arrays are joined at one level, whatever their items are. -/
theorem result_eval_merge (hA : (eval r A data).result = .ok (.arr xs))
    (hB : (eval r B data).result = .ok (.arr ys)) :
    (eval r (.obj [("merge", .arr [A, B])]) data).result = .ok (.arr (xs ++ ys)) := by
  rw [eval_merge, Outcome.bind_ok hA, Outcome.bind_ok hB]
  exact congrArg (fun zs => Except.ok (Value.arr (xs ++ zs))) (List.append_nil ys)

theorem result_eval_reduce (hX : (eval r X data).result = .ok (.arr items)) :
    (eval r (.obj [("reduce", .arr [X, body, I])]) data).result =
      (eval r I data >>= (reduceItems (eval r body) · items)).result := by
  rw [eval_reduce, collection_of_array hX, Outcome.bind_ok rfl]

namespace Operator.Gathers

variable {op : Operator} {walk : Meaning → List Value → Outcome (List Value)}

theorem result_eval (h : op.Gathers walk) (hX : (eval r X data).result = .ok (.arr items)) :
    (eval r (.obj [(op.name, .arr [X, body])]) data).result =
      (Value.arr <$> walk (eval r body) items).result := by
  rw [h.eval_eq, collection_of_array hX, Outcome.bind_ok rfl, map_eq_pure_bind]

/-! ## Joined sources -/

/-- What is gathered from joined lists is what is gathered from each, merged. -/
theorem walk_append_eq_merge (h : op.Gathers walk) (m : Meaning) (xs ys : List Value) :
    Value.arr <$> walk m (xs ++ ys) = (do
      let p ← Value.arr <$> walk m xs
      let q ← Value.arr <$> walk m ys
      pure (.arr (Eager.merge [p, q]))) := by
  have hmerge (front back : List Value) : Eager.merge [.arr front, .arr back] = front ++ back :=
    congrArg (front ++ ·) (List.append_nil back)
  simp only [h.walk_append, map_eq_pure_bind, bind_assoc, pure_bind, hmerge]

/-- `map` and `filter` may be applied to each of two arrays before they are joined. -/
theorem answer_merge (h : op.Gathers walk) (hA : (eval r A data).result = .ok (.arr xs))
    (hB : (eval r B data).result = .ok (.arr ys)) :
    answer r data op [.obj [("merge", .arr [A, B])], body] =
      answer r data .merge
        [.obj [(op.name, .arr [A, body])], .obj [(op.name, .arr [B, body])]] := by
  have hjoined : answer r data op [.obj [("merge", .arr [A, B])], body] = _ :=
    h.result_eval (result_eval_merge hA hB)
  have hparts : answer r data .merge
      [.obj [(op.name, .arr [A, body])], .obj [(op.name, .arr [B, body])]] = _ :=
    congrArg Outcome.result (eval_merge _ _)
  rw [hjoined, hparts, h.walk_append_eq_merge]
  -- the parts log more than the walks, but come to what the walks do
  refine Congruence.sameResult.bind (h.result_eval hA).symm fun p _ _ => ?_
  exact Congruence.sameResult.bind (h.result_eval hB).symm fun q _ _ => rfl

end Operator.Gathers

/-- A `reduce` over joined arrays goes on over the second where it ends over the first. -/
theorem answer_reduce_merge (hA : (eval r A data).result = .ok (.arr xs))
    (hB : (eval r B data).result = .ok (.arr ys)) :
    answer r data .reduce [.obj [("merge", .arr [A, B])], body, I] =
      answer r data .reduce [B, body, .obj [("reduce", .arr [A, body, I])]] := by
  have hfirst : (eval r I data >>= (reduceItems (eval r body) · xs)).result =
      (eval r (.obj [("reduce", .arr [A, body, I])]) data).result := (result_eval_reduce hA).symm
  calc answer r data .reduce [.obj [("merge", .arr [A, B])], body, I]
    _ = (eval r I data >>= (reduceItems (eval r body) · (xs ++ ys))).result :=
        result_eval_reduce (result_eval_merge hA hB)
    _ = (eval r I data >>= (reduceItems (eval r body) · xs) >>=
          (reduceItems (eval r body) · ys)).result := by
        simp only [reduceItems_append, bind_assoc]
    _ = (eval r (.obj [("reduce", .arr [A, body, I])]) data >>=
          (reduceItems (eval r body) · ys)).result :=
        Congruence.sameResult.bind hfirst fun next _ _ => rfl
    _ = answer r data .reduce [B, body, .obj [("reduce", .arr [A, body, I])]] :=
        (result_eval_reduce hB).symm

end

/-! ## Scoped operators -/

/-- **Scoped operators distribute over concatenation.**  On two arrays that are merged `map` and
`filter` come to what they give on each of the two, merged, and `reduce` comes to what it gives on
the second when it starts with what it gives on the first: to the same value or to the same error,
whatever the bodies and the initial value are. -/
theorem scopes_distribute (r : Registry) (A B data : Value) (xs ys : List Value)
    (hA : (eval r A data).result = .ok (.arr xs)) (hB : (eval r B data).result = .ok (.arr ys)) :
    (∀ (op : Operator) (body : Value), op = .map ∨ op = .filter →
      answer r data op [.obj [("merge", .arr [A, B])], body] =
        answer r data .merge
          [.obj [(op.name, .arr [A, body])], .obj [(op.name, .arr [B, body])]]) ∧
    ∀ body I, answer r data .reduce [.obj [("merge", .arr [A, B])], body, I] =
      answer r data .reduce [B, body, .obj [("reduce", .arr [A, body, I])]] := by
  refine ⟨fun op body hop => ?_, fun body I => answer_reduce_merge hA hB⟩
  rcases hop with rfl | rfl
  · exact Operator.Gathers.map.answer_merge hA hB
  · exact Operator.Gathers.filter.answer_merge hA hB

theorem scopes_distribute_nested_items :
    let A := Value.obj [("log", .obj [("var", .str "first")])]
    let B := Value.obj [("log", .obj [("var", .str "second")])]
    let item := Value.obj [("var", .str "")]
    let pair := Value.obj [("merge", .arr [item, .str "z"])]
    let collect := Value.obj [("merge", .arr [.obj [("var", .str "current")],
      .obj [("var", .str "accumulator")]])]
    let xs := [Value.arr [.arr [.str "x"]], .null]
    let ys := [Value.arr [.str "y"]]
    let data := Value.obj [("first", .arr xs), ("second", .arr ys)]
    (eval .empty A data).result = .ok (.arr xs) ∧ (eval .empty B data).result = .ok (.arr ys) ∧
      answer .empty data .merge [.obj [("map", .arr [A, pair])], .obj [("map", .arr [B, pair])]] =
        .ok (.arr [.arr [.arr [.str "x"], .str "z"], .arr [.null, .str "z"],
          .arr [.str "y", .str "z"]]) ∧
      answer .empty data .merge
          [.obj [("filter", .arr [A, item])], .obj [("filter", .arr [B, item])]] =
        .ok (.arr [.arr [.arr [.str "x"]], .arr [.str "y"]]) ∧
      answer .empty data .reduce
          [B, collect, .obj [("reduce", .arr [A, collect, .str "i"])]] =
        .ok (.arr [.str "y", .null, .arr [.str "x"], .str "i"]) ∧
      answer .empty data .reduce
          [B, collect, .obj [("reduce", .arr [A, collect, .obj [("nope", .arr [])]])]] =
        .error (.unknownOperator "nope") := by
  intro A B item pair collect xs ys data
  have hA : (eval .empty A data).result = .ok (.arr xs) := rfl
  have hB : (eval .empty B data).result = .ok (.arr ys) := rfl
  obtain ⟨hgathers, hreduces⟩ := scopes_distribute .empty A B data xs ys hA hB
  refine ⟨hA, hB, ?_, ?_, ?_, ?_⟩
  · exact (hgathers .map pair (.inl rfl)).symm.trans rfl
  · exact (hgathers .filter item (.inr rfl)).symm.trans rfl
  · exact (hreduces collect (.str "i")).symm.trans rfl
  · exact (hreduces collect (.obj [("nope", .arr [])])).symm.trans rfl

end RuleLogic
