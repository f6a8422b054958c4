import RuleLogic.Proofs.DocumentOrder
import RuleLogic.Proofs.NumeralText

/-!
# Places and their texts

The text of a place joins the names of operators and indexes without any escapes, so different
places can have one text: a name may hold dots and brackets.  Within one rule they cannot.  The
steps from one node to its parts have one form and one name, they differ in their indexes alone, and
an index ends at its bracket.  So no text of a step begins another one, and texts of places begin
each other only as the places do.

    p and q are places of nodes of one rule →
      ((∃ rest, q.text = p.text ++ rest) ↔ p <+: q)              (exists_text_append_iff)
    the texts of the places of all nodes are different                      (nodup_texts)
-/

namespace RuleLogic

open Validation

/-! ## The nodes of a rule -/

mutual

/-- The nodes of a rule where all operators on the way are admitted, each with its place, a node
before its parts. -/
def Value.nodes (admits : String → Bool) (place : Place) : Value → List (Place × Value)
  | .arr items => (place, .arr items) :: Value.itemNodes admits (place ++ [.item ·]) 0 items
  | .obj ((name, .arr items) :: rest) =>
    (place, .obj ((name, .arr items) :: rest)) ::
      if admits name then Value.itemNodes admits (place ++ [.argument name ·]) 0 items else []
  | .obj ((name, v) :: rest) =>
    (place, .obj ((name, v) :: rest)) ::
      if admits name then Value.nodes admits (place ++ [.bare name]) v else []
  | literal => [(place, literal)]

/-- The nodes of the rules of a list, from an index on. -/
def Value.itemNodes (admits : String → Bool) (place : Nat → Place) (index : Nat) :
    List Value → List (Place × Value)
  | [] => []
  | v :: rest => v.nodes admits (place index) ++ Value.itemNodes admits place (index + 1) rest

end

/-- Below an operator that is not admitted there are no nodes. -/
example : (Value.arr [.obj [("a.b", .obj [("!", .null)])], .str "c"]).nodes (· != "!") [] =
    [([], .arr [.obj [("a.b", .obj [("!", .null)])], .str "c"]),
     ([.item 0], .obj [("a.b", .obj [("!", .null)])]),
     ([.item 0, .bare "a.b"], .obj [("!", .null)]),
     ([.item 1], .str "c")] := by decide

section
variable {admits : String → Bool}

theorem itemNodes_eq_flatMap (place : Place) (step : Nat → Step) (index : Nat)
    (items : List Value) : Value.itemNodes admits (fun i => place ++ [step i]) index items =
      ((items.zipIdx index).map fun (c, i) => (step i, c)).flatMap fun (s, c) =>
        c.nodes admits (place ++ [s]) := by
  induction items generalizing index with
  | nil => rfl
  | cons v rest ih => rw [Value.itemNodes, ih, List.zipIdx_cons, List.map_cons, List.flatMap_cons]

/-- A node comes first, then the nodes of its parts from left to right. -/
theorem nodes_eq (place : Place) (v : Value) :
    v.nodes admits place = (place, v) ::
      if v.opens admits then v.steps.flatMap fun (s, c) => c.nodes admits (place ++ [s])
      else [] := by
  match v with
  | .null | .bool _ | .num _ | .str _ | .obj [] => rfl
  | .arr items =>
    rw [Value.nodes, itemNodes_eq_flatMap place .item]
    rfl
  | .obj ((name, .arr items) :: rest) =>
    rw [Value.nodes, itemNodes_eq_flatMap place (.argument name)]
    rfl
  | .obj ((name, .null) :: _) | .obj ((name, .bool _) :: _) | .obj ((name, .num _) :: _)
  | .obj ((name, .str _) :: _) | .obj ((name, .obj _) :: _) =>
    simp [Value.nodes, Value.steps, Value.opens]

/-- The list holds each node at its place. -/
theorem mem_nodes_iff {place q : Place} {v node : Value} : (q, node) ∈ v.nodes admits place ↔
    ∃ p, q = place ++ p ∧ NodeAt admits v p node := by
  constructor
  · intro h
    induction v using Value.rule_induction generalizing place with
    | h v ih =>
      rw [nodes_eq, List.mem_cons] at h
      rcases h with h | h
      · cases h
        exact ⟨[], (List.append_nil _).symm, .here⟩
      · split at h
        · next ho =>
          obtain ⟨⟨s, c⟩, hs, hc⟩ := List.mem_flatMap.1 h
          obtain ⟨p, hq, hn⟩ := ih c (mem_parts_of_mem_steps hs) hc
          refine ⟨s :: p, ?_, .down ho hs hn⟩
          rw [hq, List.append_assoc, List.singleton_append]
        · cases h
  · rintro ⟨p, rfl, hn⟩
    induction hn generalizing place with
    | here =>
      rw [nodes_eq, List.append_nil]
      exact List.mem_cons_self
    | @down v c node s p ho hs _ ih =>
      rw [nodes_eq, if_pos ho]
      refine List.mem_cons_of_mem _ (List.mem_flatMap.2 ⟨(s, c), hs, ?_⟩)
      have hc : (place ++ [s] ++ p, node) ∈ c.nodes admits (place ++ [s]) := ih
      rwa [List.append_assoc, List.singleton_append] at hc

theorem mem_nodes_nil_iff {p : Place} {v node : Value} :
    (p, node) ∈ v.nodes admits [] ↔ NodeAt admits v p node := by
  rw [mem_nodes_iff]
  simp only [List.nil_append, exists_eq_left']

/-- Different entries of the list are at different places. -/
theorem nodup_nodes (place : Place) (v : Value) : ((v.nodes admits place).map (·.1)).Nodup := by
  induction v using Value.rule_induction generalizing place with
  | h v ih =>
    rw [nodes_eq, List.map_cons, List.nodup_cons]
    split
    · next ho =>
      -- a place below the part of a step goes on with that step
      have hbelow {q : Place} {s : Step} {c : Value}
          (h : q ∈ (c.nodes admits (place ++ [s])).map (·.1)) : ∃ p, q = place ++ s :: p := by
        obtain ⟨⟨_, node⟩, hn, rfl⟩ := List.mem_map.1 h
        obtain ⟨p, hq, -⟩ := mem_nodes_iff.1 hn
        exact ⟨p, by rw [hq, List.append_assoc, List.singleton_append]⟩
      rw [List.map_flatMap]
      constructor
      · intro h
        obtain ⟨⟨s, c⟩, -, hc⟩ := List.mem_flatMap.1 h
        obtain ⟨p, hp⟩ := hbelow hc
        exact List.cons_ne_nil s p (List.append_right_eq_self.1 hp.symm)
      · refine List.nodup_flatMap.2 ⟨fun x hx => ih x.2 (mem_parts_of_mem_steps hx) _, ?_⟩
        have hsteps : v.steps.Pairwise fun x y => x.1 ≠ y.1 := List.pairwise_map.1 (nodup_steps v)
        refine hsteps.imp fun {x y} hne q hx hy => hne ?_
        obtain ⟨p, hp⟩ := hbelow hx
        obtain ⟨p', hp'⟩ := hbelow hy
        rw [hp] at hp'
        exact (List.cons.inj (List.append_cancel_left hp')).1
    · exact ⟨List.not_mem_nil, List.nodup_nil⟩

end

/-- Validation lists the problems of the nodes below accepted operators, and these are the nodes
that it visits. -/
theorem findings_eq_flatMap_nodes (custom : Allowlist) (place : Place) (rule : Value) :
    findings custom place rule = (rule.nodes custom.accepts place).flatMap fun (p, node) =>
      (node.problems custom).map (⟨p, ·⟩) := by
  induction rule using Value.rule_induction generalizing place with
  | h rule ih =>
    rw [findings_eq, nodes_eq, List.flatMap_cons]
    congr 1
    split
    · rw [List.flatMap_assoc]
      exact List.flatMap_congr fun ⟨s, c⟩ hs => ih c (mem_parts_of_mem_steps hs) _
    · rfl

/-! ## Texts of steps -/

/-- An index ends at its bracket. -/
theorem indexText_append_inj {i j : Nat} {xs ys : List Char}
    (h : indexText i ++ xs = indexText j ++ ys) : i = j ∧ xs = ys := by
  have hdigit (n : Nat) : ∀ c ∈ Nat.toDigits 10 n, c.isDigit :=
    fun c hc => Nat.isDigit_of_mem_toDigits (by decide) (by decide) hc
  have hbracket (rest : List Char) : ∀ c ∈ (']' :: rest).head?, c.isDigit = false := by
    intro c hc
    cases hc
    rfl
  have hbody : Nat.toDigits 10 i ++ ']' :: xs = Nat.toDigits 10 j ++ ']' :: ys := by
    simpa only [indexText, List.cons_append, List.append_assoc, List.nil_append,
      List.cons.injEq, true_and] using h
  have hdigits : Nat.toDigits 10 i = Nat.toDigits 10 j := by
    have htake := congrArg (List.takeWhile Char.isDigit) hbody
    rwa [Numeral.takeWhile_isDigit (hdigit i) (hbracket xs),
      Numeral.takeWhile_isDigit (hdigit j) (hbracket ys)] at htake
  constructor
  · calc
      i = Nat.ofDigitChars 10 (Nat.toDigits 10 i) 0 := Nat.ofDigitChars_ten_toDigits.symm
      _ = Nat.ofDigitChars 10 (Nat.toDigits 10 j) 0 := by rw [hdigits]
      _ = j := Nat.ofDigitChars_ten_toDigits
  · rw [hdigits] at hbody
    exact (List.cons.inj (List.append_cancel_left hbody)).2

theorem Step.text_ne_nil (s : Step) : s.text ≠ [] := by
  cases s <;> exact List.cons_ne_nil _ _

/-- All steps from a node are the same one, or they differ in the index at the end alone. -/
theorem steps_alike (v : Value) : (∃ s, ∀ x ∈ v.steps, x.1 = s) ∨
    ∃ (step : Nat → Step) (front : List Char), (∀ i, (step i).text = front ++ indexText i) ∧
      ∀ x ∈ v.steps, ∃ i, x.1 = step i := by
  have hindexed (step : Nat → Step) (items : List Value) :
      ∀ x ∈ items.zipIdx.map fun (c, i) => (step i, c), ∃ i, x.1 = step i := by
    intro x hx
    obtain ⟨⟨c, i⟩, -, rfl⟩ := List.mem_map.1 hx
    exact ⟨i, rfl⟩
  match v with
  | .null | .bool _ | .num _ | .str _ | .obj [] => exact .inl ⟨.item 0, nofun⟩
  | .arr items => exact .inr ⟨.item, [], fun _ => rfl, hindexed .item items⟩
  | .obj ((name, .arr items) :: _) =>
    exact .inr ⟨.argument name, '.' :: name.toList, fun _ => rfl, hindexed (.argument name) items⟩
  | .obj ((name, .null) :: _) | .obj ((name, .bool _) :: _) | .obj ((name, .num _) :: _)
  | .obj ((name, .str _) :: _) | .obj ((name, .obj _) :: _) =>
    exact .inl ⟨.bare name, fun x hx => congrArg Prod.fst (List.mem_singleton.1 hx)⟩

/-- No text of a step from a node begins that of another. -/
theorem step_text_append_inj {v c c' : Value} {s s' : Step} (h : (s, c) ∈ v.steps)
    (h' : (s', c') ∈ v.steps) {xs ys : List Char} (htext : s.text ++ xs = s'.text ++ ys) :
    s = s' ∧ xs = ys := by
  rcases steps_alike v with ⟨t, hall⟩ | ⟨step, front, hfront, hall⟩
  · obtain rfl : s = t := hall _ h
    obtain rfl : s' = s := hall _ h'
    exact ⟨rfl, List.append_cancel_left htext⟩
  · obtain ⟨i, rfl⟩ : ∃ i, s = step i := hall _ h
    obtain ⟨j, rfl⟩ : ∃ j, s' = step j := hall _ h'
    rw [hfront, hfront, List.append_assoc, List.append_assoc] at htext
    obtain ⟨rfl, hrest⟩ := indexText_append_inj (List.append_cancel_left htext)
    exact ⟨rfl, hrest⟩

/-! ## Texts of places -/

section
variable {admits admits' : String → Bool} {rule a b : Value} {p q : Place}

/-- The text of one node's place begins that of another's only if the place does. -/
theorem prefix_of_text_prefix (ha : NodeAt admits rule p a) (hb : NodeAt admits' rule q b)
    (h : p.flatMap Step.text <+: q.flatMap Step.text) : p <+: q := by
  induction ha generalizing q with
  | here => exact List.nil_prefix
  | @down v c node s p _ hs _ ih =>
    obtain ⟨rest, htext⟩ := h
    cases hb with
    | here =>
      -- the text of the step is there, but no text is left
      rw [List.flatMap_cons, List.append_assoc] at htext
      exact absurd (List.append_eq_nil_iff.1 htext).1 s.text_ne_nil
    | @down _ c' _ s' q _ hs' hb =>
      rw [List.flatMap_cons, List.flatMap_cons, List.append_assoc] at htext
      obtain ⟨rfl, hbelow⟩ := step_text_append_inj hs hs' htext
      obtain rfl := eq_of_mem_steps hs hs'
      exact List.cons_prefix_cons.2 ⟨rfl, ih hb ⟨rest, hbelow⟩⟩

theorem exists_text_append_iff (ha : NodeAt admits rule p a) (hb : NodeAt admits' rule q b) :
    (∃ rest, q.text = p.text ++ rest) ↔ p <+: q := by
  constructor
  · rintro ⟨rest, h⟩
    refine prefix_of_text_prefix ha hb ⟨rest.toList, ?_⟩
    rw [Place.text_eq, Place.text_eq, String.append_assoc, String.append_right_inj] at h
    have hchars := congrArg String.toList h
    rw [Place.stepsText, Place.stepsText, String.toList_append, String.toList_ofList,
      String.toList_ofList] at hchars
    exact hchars.symm
  · rintro ⟨below, rfl⟩
    exact ⟨_, Place.text_append p below⟩

/-- Nodes whose places have one text are one node. -/
theorem eq_of_text_eq (ha : NodeAt admits rule p a) (hb : NodeAt admits' rule q b)
    (h : p.text = q.text) : p = q := by
  have hpq := (exists_text_append_iff ha hb).1 ⟨"", by rw [h, String.append_empty]⟩
  have hqp := (exists_text_append_iff hb ha).1 ⟨"", by rw [h, String.append_empty]⟩
  exact hpq.eq_of_length (Nat.le_antisymm hpq.length_le hqp.length_le)

end

theorem Place.stepsText_eq_empty_iff {p : Place} : p.stepsText = "" ↔ p = [] := by
  constructor
  · intro h
    cases p with
    | nil => rfl
    | cons s p =>
      have hchars := congrArg String.toList h
      rw [Place.stepsText, String.toList_ofList, List.flatMap_cons] at hchars
      exact absurd (List.append_eq_nil_iff.1 hchars).1 s.text_ne_nil
  · rintro rfl
    rfl

/-- The texts of the places that a walk visits are all different. -/
theorem nodup_texts (admits : String → Bool) (rule : Value) :
    ((rule.nodes admits []).map (·.1.text)).Nodup := by
  have hmap : (rule.nodes admits []).map (·.1.text) =
      ((rule.nodes admits []).map (·.1)).map Place.text := by
    rw [List.map_map]
    rfl
  rw [hmap]
  refine List.Nodup.map_on (fun p hp q hq h => ?_) (nodup_nodes [] rule)
  obtain ⟨⟨_, a⟩, ha, rfl⟩ := List.mem_map.1 hp
  obtain ⟨⟨_, b⟩, hb, rfl⟩ := List.mem_map.1 hq
  exact eq_of_text_eq (mem_nodes_nil_iff.1 ha) (mem_nodes_nil_iff.1 hb) h

/-! ## Reports -/

/-- **The places in a report identify nodes.**  Whatever names are accepted, the nodes that
validation visits have places of different texts, and the text of one is a proper beginning of the
text of another exactly if the other node is strictly below.  What is found are the problems of
these nodes, so the text of a finding's place says which node it is about. -/
theorem place_texts_identify_nodes (custom : Allowlist) (rule : Value) :
    let visited := rule.nodes custom.accepts []
    findings custom [] rule =
      visited.flatMap (fun (p, node) => (node.problems custom).map (⟨p, ·⟩)) ∧
    (visited.map (·.1.text)).Nodup ∧
    (∀ m ∈ visited, ∀ n ∈ visited, (∃ rest, rest ≠ "" ∧ n.1.text = m.1.text ++ rest) ↔
      n ≠ m ∧ n ∈ m.2.nodes custom.accepts m.1) ∧
    ∀ f ∈ (validate custom rule).errors ++ (validate custom rule).warnings,
      ∃ n ∈ visited, n.1 = f.place ∧ f.problem ∈ n.2.problems custom ∧
        ∀ m ∈ visited, m.1.text = f.place.text → m = n := by
  intro visited
  refine ⟨findings_eq_flatMap_nodes custom [] rule, nodup_texts custom.accepts rule, ?_, ?_⟩
  · rintro ⟨p, a⟩ ha ⟨q, b⟩ hb
    have ha := mem_nodes_nil_iff.1 ha
    have hb := mem_nodes_nil_iff.1 hb
    constructor
    · rintro ⟨rest, hrest, htext⟩
      obtain ⟨below, rfl⟩ := (exists_text_append_iff ha hb).1 ⟨rest, htext⟩
      obtain ⟨middle, hmiddle, hbelow⟩ := hb.split
      obtain rfl := hmiddle.unique ha
      refine ⟨?_, mem_nodes_iff.2 ⟨below, rfl, hbelow⟩⟩
      intro heq
      have hplace : p ++ below = p := congrArg Prod.fst heq
      rw [hplace] at htext
      exact hrest (String.append_eq_left_iff.1 htext.symm)
    · rintro ⟨hne, hbelow⟩
      obtain ⟨below, rfl, hn⟩ := mem_nodes_iff.1 hbelow
      refine ⟨Place.stepsText below, fun hempty => ?_, Place.text_append p below⟩
      obtain rfl := Place.stepsText_eq_empty_iff.1 hempty
      cases hn
      exact hne (by rw [List.append_nil])
  · intro f hf
    obtain ⟨node, hn, hproblem⟩ := exists_nodeAt_of_mem hf
    refine ⟨(f.place, node), mem_nodes_nil_iff.2 hn, rfl, hproblem, ?_⟩
    rintro ⟨q, other⟩ hq htext
    have hother := mem_nodes_nil_iff.1 hq
    obtain rfl := eq_of_text_eq hother hn htext
    rw [hother.unique hn]

theorem place_texts_identify_nodes_brackets :
    let custom : Allowlist := ["", "a.[0]"]
    let unknown := Value.obj [("nope", .null)]
    let node := Value.obj [("a.[0]", .arr [unknown])]
    let rule := Value.obj [("", .arr [node, .arr [unknown]])]
    let visited := rule.nodes custom.accepts []
    let m : Place × Value := ([.argument "" 0], node)
    let n : Place × Value := ([.argument "" 0, .argument "a.[0]" 0], unknown)
    let f : Reported := ⟨⟨n.1, .unknownOperator "nope" custom.known⟩, .error⟩
    visited.map (·.1.text) =
        ["root", "root.[0]", "root.[0].a.[0][0]", "root.[1]", "root.[1][0]"] ∧
      (visited.map (·.1.text)).Nodup ∧ m ∈ visited ∧ n ∈ visited ∧
      n ≠ m ∧ n ∈ m.2.nodes custom.accepts m.1 ∧
      (∃ rest, rest ≠ "" ∧ n.1.text = m.1.text ++ rest) ∧
      f ∈ (validate custom rule).errors ++ (validate custom rule).warnings ∧
      ∃ found ∈ visited, found.1 = f.place ∧ f.problem ∈ found.2.problems custom ∧
        ∀ other ∈ visited, other.1.text = f.place.text → other = found := by
  intro custom unknown node rule visited m n f
  obtain ⟨-, hnodup, hbelow, hfinding⟩ := place_texts_identify_nodes custom rule
  have hm : m ∈ visited := by decide
  have hn : n ∈ visited := by decide
  have hnode : n ≠ m ∧ n ∈ m.2.nodes custom.accepts m.1 := by decide
  have hf : f ∈ (validate custom rule).errors ++ (validate custom rule).warnings := by decide
  exact ⟨by decide, hnodup, hm, hn, hnode.1, hnode.2, (hbelow m hm n hn).2 hnode, hf,
    hfinding f hf⟩

end RuleLogic
