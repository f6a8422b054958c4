import RuleLogic.Proofs.Equalities
import RuleLogic.Proofs.IntegerText
import RuleLogic.Proofs.Nesting
import RuleLogic.Proofs.Slicing

/-!
# Searching in what has been put together

`in` takes an operand as its text when it searches a string, and as it is when it searches an array.
`cat` and `substr` take their operands as texts in the same way, and `merge` keeps them as they are.
So a search finds what has been put into a string or an array, and finds a piece in the text it was
cut from.

    v ∈ values → v.plain <:+: values.flatMap Value.plain                   (plain_infix_of_mem)
    cut text start length <:+: text                                            (Text.cut_infix)
    v ∈ Eager.merge values ↔ v is a value, no array, or an item of one      (Eager.mem_merge_iff)
-/

namespace RuleLogic

section
variable {r : Registry} {data P H v : Value} {rules values : List Value}

/-! ## Searches -/

/-- `in` on an array looks for an item that is strictly equal to the operand. -/
theorem answer_elem_arr {items : List Value} (hP : (eval r P data).result = .ok v)
    (hH : (eval r H data).result = .ok (.arr items)) :
    answer r data .elem [P, H] = .ok (.bool (items.any fun item => item.strictEq v)) := by
  have hvalues : EvaluateTo r data [P, H] [v, .arr items] := .cons hP (.cons hH .nil)
  rw [answer_eq_apply rfl rfl hvalues]
  rfl

theorem answer_elem_of_infix {text : List Char} (hP : (eval r P data).result = .ok v)
    (hH : (eval r H data).result = .ok (.str (String.ofList text))) (h : v.plain <:+: text) :
    answer r data .elem [P, H] = .ok (.bool true) := by
  have hfound : Text.hasPart v.plain (String.ofList text).toList = true := by
    rw [Text.hasPart_iff, String.toList_ofList]
    exact h
  rw [answer_elem_str hP hH, hfound]

/-- An operand is found among items, as it is equal to itself. -/
theorem answer_elem_of_mem {items : List Value} (hu : v.UniqueKeys)
    (hP : (eval r P data).result = .ok v) (hH : (eval r H data).result = .ok (.arr items))
    (h : v ∈ items) : answer r data .elem [P, H] = .ok (.bool true) := by
  have hfound : (items.any fun item => item.strictEq v) = true := by
    rw [List.any_eq_true]
    exact ⟨v, h, Value.strictEq_refl hu⟩
  rw [answer_elem_arr hP hH, hfound]

/-! ## Joins -/

theorem Operator.Joins.answer_eq {op : Operator} {join : List Value → Value} (h : op.Joins join)
    (hne : values ≠ []) (hv : EvaluateTo r data rules values) :
    answer r data op rules = .ok (join values) := by
  have hrules : rules ≠ [] := by
    rintro rfl
    exact hne (List.forall₂_nil_left_iff.1 hv)
  have hvalues := evalEach_eq_of_ok (List.forall₂_map_left_iff.2 hv)
  rw [answer, h.eval_eq hrules, hvalues, Outcome.bind_ok rfl]
  rfl

/-- What an operand adds to a text stands in the text. -/
theorem plain_infix_of_mem (h : v ∈ values) : v.plain <:+: values.flatMap Value.plain := by
  have hadded := List.infix_of_mem_flatten (List.mem_map_of_mem (f := Value.plain) h)
  rwa [← List.flatMap_def] at hadded

/-- What `merge` gives holds the items of arrays and everything else as it is. -/
theorem Eager.mem_merge_iff : v ∈ Eager.merge values ↔
    (v ∈ values ∧ v.kind ≠ .array) ∨ ∃ items, .arr items ∈ values ∧ v ∈ items := by
  rw [Eager.merge, List.mem_flatMap]
  constructor
  · rintro ⟨u, hu, hv⟩
    cases u with
    | arr items => exact .inr ⟨items, hu, hv⟩
    | _ =>
      obtain rfl := List.mem_singleton.1 hv
      refine .inl ⟨hu, ?_⟩
      intro hkind
      cases hkind
  · rintro (⟨hv, hkind⟩ | ⟨items, hitems, hv⟩)
    · refine ⟨v, hv, ?_⟩
      cases v with
      | arr items => exact absurd rfl hkind
      | _ => exact List.mem_singleton_self _
    · exact ⟨.arr items, hitems, hv⟩

/-! ## Pieces -/

namespace Text

/-- A piece stands in its text. -/
theorem cut_infix (text : List Char) (start : Int) (length : Option Int) :
    cut text start length <:+: text := by
  have htail := List.drop_suffix (startIndex text.length start).toNat
    (text.take (endIndex text.length (startIndex text.length start) length).toNat)
  have hfront := List.take_prefix
    (endIndex text.length (startIndex text.length start) length).toNat text
  exact htail.isInfix.trans hfront.isInfix

/-- The operands of `substr` behind the text: an integer where the piece starts, and perhaps its
length. -/
inductive Indexes : List Value → Prop
  | start {u : Value} {start : Int} (hu : integer? u = some start) : Indexes [u]
  | length {u w : Value} {start length : Int} (hu : integer? u = some start)
    (hw : integer? w = some length) : Indexes [u, w]

theorem Indexes.exists_substr (h : Indexes values) (op : Operator) (v : Value) :
    ∃ piece : List Char, piece <:+: v.plain ∧
      substr op (v :: values) = .ok (.str (String.ofList piece)) := by
  cases h with
  | @start u start hu =>
    refine ⟨cut v.plain (saturate start) none, cut_infix _ _ _, ?_⟩
    rw [substr, index_of_integer? hu]
    rfl
  | @length u w start length hu hw =>
    refine ⟨cut v.plain (saturate start) (some (saturate length)), cut_infix _ _ _, ?_⟩
    rw [substr, index_of_integer? hu, index_of_integer? hw]
    rfl

theorem Indexes.exists_answer (h : Indexes values) (hP : (eval r P data).result = .ok v)
    (hv : EvaluateTo r data rules values) :
    ∃ piece : List Char, piece <:+: v.plain ∧
      answer r data .substr (P :: rules) = .ok (.str (String.ofList piece)) := by
  have hn : Operator.substr.arity.accepts (v :: values).length = true := by
    cases h <;> rfl
  obtain ⟨piece, hpiece, hsubstr⟩ := h.exists_substr .substr v
  have hoperands : EvaluateTo r data (P :: rules) (v :: values) := .cons hP hv
  refine ⟨piece, hpiece, ?_⟩
  rw [answer_eq_apply rfl hn hoperands]
  exact hsubstr

end Text

end

/-! ## What has been put in is found -/

/-- **A search finds what was put in.**  The value of every argument of `cat` is found in the string
that it gives, whatever kind of value it is.  Every piece that `substr` cuts out of a value's text
is found in this text.  Every argument of `merge` that is no array, and every item of one that is,
is found in the array that it gives, if no object in it has a key twice. -/
theorem search_finds_parts (r : Registry) (data P v : Value)
    (hP : (eval r P data).result = .ok v) :
    (∀ rules values, EvaluateTo r data rules values → v ∈ values →
      answer r data .elem [P, .obj [("cat", .arr rules)]] = .ok (.bool true)) ∧
    (∀ T indexes values, (eval r T data).result = .ok (.str (String.ofList v.plain)) →
      EvaluateTo r data indexes values → Text.Indexes values →
        answer r data .elem [.obj [("substr", .arr (P :: indexes))], T] = .ok (.bool true)) ∧
    (v.UniqueKeys → ∀ rules values, EvaluateTo r data rules values →
      ((v ∈ values ∧ v.kind ≠ .array) ∨ ∃ items, .arr items ∈ values ∧ v ∈ items) →
        answer r data .elem [P, .obj [("merge", .arr rules)]] = .ok (.bool true)) := by
  refine ⟨?_, ?_, ?_⟩
  · intro rules values hv hmem
    have hcat := Operator.Joins.cat.answer_eq (List.ne_nil_of_mem hmem) hv
    exact answer_elem_of_infix hP hcat (plain_infix_of_mem hmem)
  · intro T indexes values hT hv hindexes
    obtain ⟨piece, hpiece, hsubstr⟩ := hindexes.exists_answer hP hv
    have htext : (Value.str (String.ofList piece)).plain = piece := String.toList_ofList
    refine answer_elem_of_infix hsubstr hT ?_
    rw [htext]
    exact hpiece
  · intro hu rules values hv hput
    have hmem := Eager.mem_merge_iff.2 hput
    have hne : values ≠ [] := by
      rintro rfl
      simp [Eager.merge] at hmem
    have hmerge := Operator.Joins.merge.answer_eq hne hv
    exact answer_elem_of_mem hu hP hmerge hmem

/-- An array with an object and the negative zero, taken from the data. -/
theorem search_finds_parts_nested :
    let v := Value.arr [.null, .obj [("b", .str "x"), ("a", .num (.double (.zero true)))], .arr []]
    let data := Value.obj [("v", v)]
    let P := Value.obj [("var", .str "v")]
    let indexes := [Value.num (.int (-9) (by decide)), .str " 4 "]
    v.UniqueKeys ∧ (eval .empty P data).result = .ok v ∧
      answer .empty data .elem [P, .obj [("cat", .arr [.bool true, P])]] = .ok (.bool true) ∧
      answer .empty data .elem [.obj [("substr", .arr (P :: indexes))],
        .obj [("cat", .arr [P])]] = .ok (.bool true) ∧
      answer .empty data .elem [P, .obj [("merge", .arr [.null, .arr [P]])]] =
        .ok (.bool true) := by
  intro v data P indexes
  have hv : v.UniqueKeys := by decide +kernel
  have hP : (eval .empty P data).result = .ok v := by decide +kernel
  have hstart : Text.integer? (.num (.int (-9) (by decide))) = some (-9) := by decide +kernel
  have hlength : Text.integer? (.str " 4 ") = some 4 := by decide +kernel
  have hwrapped : (eval .empty (.arr [P]) data).result = .ok (.arr [v]) := by decide +kernel
  have htext : answer .empty data .cat [P] = .ok (.str (String.ofList v.plain)) := by
    decide +kernel
  obtain ⟨hcat, hsubstr, hmerge⟩ := search_finds_parts .empty data P v hP
  refine ⟨hv, hP, ?_, ?_, ?_⟩
  · have hvalues : EvaluateTo .empty data [.bool true, P] [.bool true, v] :=
      .cons rfl (.cons hP .nil)
    exact hcat _ _ hvalues (by simp)
  · have hvalues : EvaluateTo .empty data indexes indexes := .cons rfl (.cons rfl .nil)
    exact hsubstr _ _ _ htext hvalues (.length hstart hlength)
  · have hvalues : EvaluateTo .empty data [.null, .arr [P]] [.null, .arr [v]] :=
      .cons rfl (.cons hwrapped .nil)
    exact hmerge hv _ _ hvalues (.inr ⟨[v], by simp, List.mem_singleton_self v⟩)

end RuleLogic
