import RuleLogic.Proofs.Findings
import Mathlib.Data.List.Nodup
import Mathlib.Data.List.Infix

/-!
# Reports in document order

A report lists what is found in the order of the rule: the problems of a node, then those of its
parts from left to right.  So what is found inside a node stands together, and it is what is found
in the node by itself, at places that lead on from the place of the node.  Below a node with an
unknown operator nothing is found.

    findings custom p v = (findings custom [] v).map (.below p)              (findings_below)
    the findings inside a node are those of the node by itself, as one block   (exists_block)
    f inside an unknown operator → f.place = that of the operator      (place_eq_of_unknown)
-/

namespace RuleLogic

open Validation

/-! ## Findings below a place -/

/-- A finding of a node, as seen from a rule that holds the node at the place. -/
def Finding.below (p : Place) (f : Finding) : Finding := ⟨p ++ f.place, f.problem⟩

/-- The text of the steps, without the root from which they lead. -/
def Place.stepsText (p : Place) : String := String.ofList (p.flatMap Step.text)

theorem Place.text_eq (p : Place) : p.text = "root" ++ p.stepsText := by
  show String.ofList ("root".toList ++ p.flatMap Step.text) = _
  rw [String.ofList_append, String.ofList_toList, Place.stepsText]

theorem Place.text_append (p q : Place) : Place.text (p ++ q) = p.text ++ Place.stepsText q := by
  rw [Place.text_eq, Place.text_eq, Place.stepsText, Place.stepsText, Place.stepsText,
    List.flatMap_append, String.ofList_append, String.append_assoc]

section
variable {custom : Allowlist}

/-- A longer way to the node leads to the same findings. -/
theorem findings_append (p q : Place) (v : Value) :
    findings custom (p ++ q) v = (findings custom q v).map (.below p) := by
  induction v using Value.rule_induction generalizing q with
  | h v ih =>
    have hown : (v.problems custom).map (fun problem => (⟨p ++ q, problem⟩ : Finding)) =
        ((v.problems custom).map (⟨q, ·⟩)).map (.below p) := by
      rw [List.map_map]
      rfl
    rw [findings_eq (p ++ q), findings_eq q, List.map_append, hown]
    congr 1
    split
    · rw [List.map_flatMap]
      refine List.flatMap_congr fun ⟨s, c⟩ hs => ?_
      dsimp only
      rw [← ih c (mem_parts_of_mem_steps hs) (q ++ [s]), List.append_assoc]
    · rfl

theorem findings_below (p : Place) (v : Value) :
    findings custom p v = (findings custom [] v).map (.below p) := by
  have h : findings custom (p ++ []) v = _ := findings_append p [] v
  rwa [List.append_nil] at h

end

/-! ## Steps -/

/-- Different indexes give different steps. -/
theorem nodup_indexed {step : Nat → Step} (hstep : Function.Injective step) (items : List Value) :
    ((items.zipIdx.map fun (c, i) => (step i, c)).map (·.1)).Nodup := by
  have hindexes : (items.zipIdx.map fun (c, i) => (step i, c)).map (·.1) =
      (items.zipIdx.map (·.2)).map step := by
    rw [List.map_map, List.map_map]
    rfl
  rw [hindexes, List.zipIdx_map_snd]
  exact List.Nodup.map hstep List.nodup_range'

/-- Different parts are reached by different steps. -/
theorem nodup_steps (v : Value) : (v.steps.map (·.1)).Nodup := by
  match v with
  | .null | .bool _ | .num _ | .str _ | .obj [] => exact List.nodup_nil
  | .arr items => exact nodup_indexed (fun _ _ h => Step.item.inj h) items
  | .obj ((name, .arr items) :: _) =>
    exact nodup_indexed (fun _ _ h => (Step.argument.inj h).2) items
  | .obj ((_, .null) :: _) | .obj ((_, .bool _) :: _) | .obj ((_, .num _) :: _)
  | .obj ((_, .str _) :: _) | .obj ((_, .obj _) :: _) => exact List.nodup_singleton _

theorem eq_of_mem_steps {v c c' : Value} {s : Step} (h : (s, c) ∈ v.steps)
    (h' : (s, c') ∈ v.steps) : c = c' := by
  have hpair := List.inj_on_of_nodup_map (nodup_steps v) h h' rfl
  exact congrArg Prod.snd hpair

/-- A part among the others, to which other steps lead. -/
theorem exists_steps_split {v c : Value} {s : Step} (h : (s, c) ∈ v.steps) :
    ∃ left right, v.steps = left ++ (s, c) :: right ∧ ∀ x ∈ left ++ right, x.1 ≠ s := by
  obtain ⟨left, right, hsteps⟩ := List.append_of_mem h
  have hnodup := nodup_steps v
  rw [hsteps, List.map_append, List.map_cons, List.nodup_middle, ← List.map_append,
    List.nodup_cons] at hnodup
  refine ⟨left, right, hsteps, ?_⟩
  rintro x hx rfl
  exact hnodup.1 (List.mem_map.2 ⟨x, hx, rfl⟩)

/-- There is one node at a place. -/
theorem NodeAt.unique {admits admits' : String → Bool} {v a b : Value} {p : Place}
    (ha : NodeAt admits v p a) (hb : NodeAt admits' v p b) : a = b := by
  induction ha with
  | here =>
    cases hb
    rfl
  | down _ hs _ ih =>
    cases hb with
    | down _ hs' hn =>
      obtain rfl := eq_of_mem_steps hs hs'
      exact ih hn

/-- On the way to a node there is a node at every place. -/
theorem NodeAt.split {admits : String → Bool} {v node : Value} {p q : Place}
    (h : NodeAt admits v (p ++ q) node) :
    ∃ middle, NodeAt admits v p middle ∧ NodeAt admits middle q node := by
  induction p generalizing v with
  | nil => exact ⟨v, .here, h⟩
  | cons s p ih =>
    cases h with
    | down ho hs hn =>
      obtain ⟨middle, hp, hq⟩ := ih hn
      exact ⟨middle, .down ho hs hp, hq⟩

/-! ## Blocks -/

/-- The findings inside the node at a place stand together among the outer ones, and they are the
inner ones, seen from outside. -/
def IsBlockAt (place : Place) (inner outer : List Finding) : Prop :=
  ∃ before after, outer = before ++ inner.map (.below place) ++ after ∧
    ∀ f ∈ before ++ after, ¬ place <+: f.place

theorem IsBlockAt.self (fs : List Finding) : IsBlockAt [] fs fs := by
  have hid : Finding.below [] = id := rfl
  refine ⟨[], [], ?_, fun f hf => absurd hf List.not_mem_nil⟩
  rw [hid, List.map_id, List.nil_append, List.append_nil]

/-- Whatever is kept by its problem, blocks stay blocks. -/
theorem IsBlockAt.filter {place : Place} {inner outer : List Finding}
    (h : IsBlockAt place inner outer) (keep : Problem → Bool) :
    IsBlockAt place (inner.filter (keep ·.problem)) (outer.filter (keep ·.problem)) := by
  obtain ⟨before, after, rfl, hout⟩ := h
  refine ⟨before.filter (keep ·.problem), after.filter (keep ·.problem), ?_, fun f hf => ?_⟩
  · rw [List.filter_append, List.filter_append, List.filter_map]
    rfl
  · rw [← List.filter_append] at hf
    exact hout f (List.mem_of_mem_filter hf)

/-- A block of a part is a block of the whole, when all else is outside the part. -/
theorem IsBlockAt.down {s : Step} {place : Place} {inner part before after : List Finding}
    (h : IsBlockAt place inner part) (hout : ∀ f ∈ before ++ after, ¬ [s] <+: f.place) :
    IsBlockAt (s :: place) inner (before ++ part.map (.below [s]) ++ after) := by
  obtain ⟨before', after', rfl, hout'⟩ := h
  refine ⟨before ++ before'.map (.below [s]), after'.map (.below [s]) ++ after, ?_, ?_⟩
  · simp only [List.map_append, List.map_map, List.append_assoc]
    rfl
  · have hinside : ∀ f ∈ before' ++ after', ¬ (s :: place) <+: (Finding.below [s] f).place := by
      intro f hf hp
      exact hout' f hf ((List.cons_prefix_cons.1 hp).2)
    have houtside : ∀ f ∈ before ++ after, ¬ (s :: place) <+: f.place := by
      intro f hf hp
      exact hout f hf ((List.prefix_append [s] place).trans hp)
    intro f hf
    simp only [List.mem_append, List.mem_map] at hf
    rcases hf with (hf | ⟨g, hg, rfl⟩) | ⟨g, hg, rfl⟩ | hf
    · exact houtside f (List.mem_append_left _ hf)
    · exact hinside g (List.mem_append_left _ hg)
    · exact hinside g (List.mem_append_right _ hg)
    · exact houtside f (List.mem_append_right _ hf)

section
variable {custom : Allowlist} {rule node : Value} {place : Place}

/-- The findings of a node and those of its parts, each part seen by itself. -/
theorem findings_parts (v : Value) :
    findings custom [] v = (v.problems custom).map (⟨[], ·⟩) ++
      if v.opens custom.accepts then
        v.steps.flatMap fun (s, c) => (findings custom [] c).map (.below [s])
      else [] := by
  rw [findings_eq]
  congr 1
  split
  · exact List.flatMap_congr fun ⟨s, c⟩ _ => findings_below [s] c
  · rfl

/-- What is found in a node by itself is a block of what is found in the rule. -/
theorem exists_block (h : NodeAt custom.accepts rule place node) :
    IsBlockAt place (findings custom [] node) (findings custom [] rule) := by
  induction h with
  | here => exact .self _
  | @down v c node s p ho hs _ ih =>
    obtain ⟨left, right, hsteps, hne⟩ := exists_steps_split hs
    rw [findings_parts v, if_pos ho, hsteps, List.flatMap_append, List.flatMap_cons,
      ← List.append_assoc, ← List.append_assoc]
    refine ih.down fun f hf hp => ?_
    -- the own findings are at the root, and the others begin with other steps
    have hparts (parts : List (Step × Value)) (hparts : ∀ x ∈ parts, x.1 ≠ s)
        (hf : f ∈ parts.flatMap fun (s, c) => (findings custom [] c).map (.below [s])) : False := by
      obtain ⟨⟨s', c'⟩, hx, hf⟩ := List.mem_flatMap.1 hf
      obtain ⟨g, -, rfl⟩ := List.mem_map.1 hf
      exact hparts _ hx (List.cons_prefix_cons.1 hp).1.symm
    simp only [List.mem_append] at hf
    rcases hf with (hf | hf) | hf
    · obtain ⟨problem, -, rfl⟩ := List.mem_map.1 hf
      exact absurd (List.prefix_nil.1 hp) (List.cons_ne_nil s [])
    · exact hparts left (fun x hx => hne x (List.mem_append_left _ hx)) hf
    · exact hparts right (fun x hx => hne x (List.mem_append_right _ hx)) hf

/-- Nothing is found strictly below a node with an unknown operator. -/
theorem place_eq_of_unknown {name : String} {v : Value} {rest : List (String × Value)}
    (hn : PositionAt rule place (.obj ((name, v) :: rest))) (hk : custom.accepts name = false)
    {f : Finding} (hf : f ∈ findings custom [] rule) (hp : place <+: f.place) :
    f.place = place := by
  obtain ⟨p, node, hnode, hplace, -⟩ := mem_findings_iff.1 hf
  rw [List.nil_append] at hplace
  obtain ⟨below, hbelow⟩ := hp
  rw [← hplace, ← hbelow] at hnode
  obtain ⟨middle, hmiddle, hrest⟩ := hnode.split
  obtain rfl := hmiddle.unique hn
  cases hrest with
  | here => rw [← hbelow, List.append_nil]
  | down ho _ _ =>
    have ho : custom.accepts name = true := ho
    rw [hk] at ho
    cases ho

end

/-! ## Reports -/

/-- The findings of one severity in a report. -/
def Report.listed (r : Report) : Severity → List Finding
  | .error => r.errors.map (·.toFinding)
  | .warning => r.warnings.map (·.toFinding)

theorem Report.map_reported (severity : Severity) (fs : List Finding) :
    (reported severity fs).map (·.toFinding) = fs.filter (·.severity = severity) := by
  rw [reported, List.map_map]
  exact List.map_id _

theorem listed_addAll (r : Report) (fs : List Finding) (severity : Severity) :
    (r.addAll fs).listed severity =
      r.listed severity ++ fs.filter (·.severity = severity) := by
  rw [Report.addAll_eq]
  cases severity <;> simp only [Report.listed, List.map_append, Report.map_reported]

theorem listed_validate (custom : Allowlist) (rule : Value) (severity : Severity) :
    (validate custom rule).listed severity =
      (findings custom [] rule).filter (·.severity = severity) := by
  rw [validate_eq, Report.ofFindings, listed_addAll]
  cases severity <;> rfl

/-- Whatever has been reported before, the walk adds what it finds in the rule by itself. -/
theorem listed_walk (custom : Allowlist) (place : Place) (r : Report) (rule : Value)
    (severity : Severity) : (walk custom place r rule).listed severity =
      r.listed severity ++ ((validate custom rule).listed severity).map (.below place) := by
  rw [walk_eq, listed_addAll, listed_validate, findings_below, List.filter_map]
  rfl

/-- **Validation is compositional, in document order.**  Of either severity, what is reported inside
a visited node stands together and is what is reported on the node by itself, where the way to the
node stands in place of the root; the walk adds it to any report that it is handed.  The problems of
a node come before those of its parts, and the parts from left to right; nothing is reported
strictly below an unknown operator.  A report says that the rule is valid iff it lists no errors,
and each finding is listed with the severity that it was reported with. -/
theorem validate_compositional (custom : Allowlist) (rule : Value) :
    (∀ place node, NodeAt custom.accepts rule place node → ∀ severity,
      IsBlockAt place ((validate custom node).listed severity)
        ((validate custom rule).listed severity)) ∧
    (∀ place r severity, (walk custom place r rule).listed severity =
      r.listed severity ++ ((validate custom rule).listed severity).map (.below place)) ∧
    (∀ (place : Place) (f : Finding), ∃ rest, f.place.text = "root" ++ rest ∧
      (f.below place).place.text = place.text ++ rest) ∧
    (∀ severity, (validate custom rule).listed severity =
      ((rule.problems custom).filter (·.severity = severity)).map (⟨[], ·⟩) ++
        if rule.opens custom.accepts then
          rule.steps.flatMap fun (s, c) =>
            ((validate custom c).listed severity).map (.below [s])
        else []) ∧
    (∀ place name v rest, PositionAt rule place (.obj ((name, v) :: rest)) →
      custom.accepts name = false → ∀ severity, ∀ f ∈ (validate custom rule).listed severity,
        place <+: f.place → f.place = place) ∧
    ((validate custom rule).valid = true ↔ (validate custom rule).errors = []) ∧
    (∀ f ∈ (validate custom rule).errors, f.severity = .error) ∧
    ∀ f ∈ (validate custom rule).warnings, f.severity = .warning := by
  have hreport : (validate custom rule).IsConsistent := isConsistent_validate
  refine ⟨fun place node hn severity => ?_, fun place r => listed_walk custom place r rule,
    fun place f => ?_, fun severity => ?_, fun place name v rest hn hk severity f hf => ?_,
    hreport.valid_iff, hreport.severity_of_mem_errors, hreport.severity_of_mem_warnings⟩
  · rw [listed_validate, listed_validate]
    exact (exists_block hn).filter (·.severity = severity)
  · exact ⟨f.place.stepsText, f.place.text_eq, Place.text_append place f.place⟩
  · simp only [listed_validate]
    rw [findings_parts, List.filter_append, List.filter_map]
    congr 1
    split
    · rw [List.filter_flatMap]
      refine List.flatMap_congr fun ⟨s, c⟩ _ => ?_
      dsimp only
      rw [List.filter_map]
      rfl
    · rfl
  · rw [listed_validate] at hf
    exact place_eq_of_unknown hn hk (List.mem_of_mem_filter hf)

theorem validate_compositional_comparison :
    let unknown := Value.obj [("bogus", .arr [.obj [("nope", .null)]])]
    let node := Value.obj [(">", .arr [unknown])]
    let rule := Value.obj [("and", .arr [.obj [("!", .arr [])], node, unknown])]
    let place : Place := [.argument "and" 1]
    let inside : Place := [.argument "and" 1, .argument ">" 0]
    NodeAt (Allowlist.accepts []) rule place node ∧
      IsBlockAt place ((validate [] node).listed .error) ((validate [] rule).listed .error) ∧
      ((validate [] node).listed .error).length = 2 ∧
      ((validate [] rule).listed .error).length = 4 ∧ (validate [] rule).valid = false ∧
      PositionAt rule inside unknown ∧ Allowlist.accepts [] "bogus" = false ∧
      (∀ f ∈ (validate [] rule).listed .error, inside <+: f.place → f.place = inside) ∧
      ∀ f ∈ (validate [] rule).errors, f.severity = .error := by
  intro unknown node rule place inside
  have hn : NodeAt (Allowlist.accepts []) rule place node :=
    .down rfl (List.mem_cons_of_mem _ List.mem_cons_self) .here
  have hu : PositionAt rule inside unknown :=
    .down rfl (List.mem_cons_of_mem _ List.mem_cons_self) (.down rfl List.mem_cons_self .here)
  obtain ⟨hblock, -, -, -, hbelow, -, hseverity, -⟩ := validate_compositional [] rule
  exact ⟨hn, hblock place node hn .error, by decide, by decide, by decide, hu, by decide,
    hbelow inside "bogus" _ [] hu (by decide) .error, hseverity⟩

end RuleLogic
