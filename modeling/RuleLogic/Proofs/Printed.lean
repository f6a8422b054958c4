import RuleLogic.Proofs.Commands
import RuleLogic.Proofs.Places
import RuleLogic.Proofs.RoundTrip

/-!
# What is printed

A message holds the terms that say what it is about: the quoted name of an unknown operator and the
names that are known, the numbers of arguments, the quoted path that does not resolve.  Findings of
one rule are printed alike only if they are about one node.  A printed report and a printed value
are read back as they were.

    term ∈ p.terms → IsPart term p.message                                  (Problem.isPart_message)
    IsPart (Problem.quoted w.path) w.message                            (PathWarning.isPart_message)
    f.toValue = g.toValue → f.place = g.place                          (Reported.toValue_eq_iff)
    Value.read? (run files (.validate …)).stdout = some (reportValue …)     (read?_stdout_validate)
-/

namespace RuleLogic

/-! ## Messages -/

/-- The text holds the part. -/
def IsPart (part text : String) : Prop := part.toList <:+: text.toList

instance (part text : String) : Decidable (IsPart part text) :=
  inferInstanceAs (Decidable (part.toList <:+: text.toList))

section
variable {part text : String}

theorem isPart_self (part : String) : IsPart part part := List.infix_refl _

theorem isPart_append_self (before part : String) : IsPart part (before ++ part) := by
  rw [IsPart, String.toList_append]
  exact List.infix_append_right

theorem IsPart.append (h : IsPart part text) (behind : String) : IsPart part (text ++ behind) := by
  rw [IsPart, String.toList_append]
  exact List.infix_append_of_infix_left h

theorem IsPart.append_of_right (h : IsPart part text) (before : String) :
    IsPart part (before ++ text) := by
  rw [IsPart, String.toList_append]
  exact List.infix_append_of_infix_right h

theorem isPart_intercalate (separator : String) {parts : List String} (h : part ∈ parts) :
    IsPart part (separator.intercalate parts) := by
  induction parts with
  | nil => cases h
  | cons first rest ih =>
    cases rest with
    | nil =>
      rw [List.mem_singleton.1 h, String.intercalate_singleton]
      exact isPart_self _
    | cons second rest =>
      rw [String.intercalate_cons_cons]
      rcases List.mem_cons.1 h with rfl | h
      · exact ((isPart_self _).append separator).append _
      · exact (ih h).append_of_right _

end

/-- The terms of a text that are set between other words. -/
theorem isPart_of_mem_three {a b c x y z term : String} (h : term ∈ [x, y, z]) :
    IsPart term (a ++ x ++ b ++ y ++ c ++ z) := by
  rcases List.mem_cons.1 h with rfl | h
  · exact ((((isPart_append_self _ _).append _).append _).append _).append _
  · rcases List.mem_cons.1 h with rfl | h
    · exact ((isPart_append_self _ _).append _).append _
    · rw [List.mem_singleton.1 h]
      exact isPart_append_self _ _

/-- What the message of a problem has to name. -/
def Problem.terms : Problem → List String
  | .extraKeys count first => [toString count, quoted first]
  | .unknownOperator name known => quoted name :: known
  | .tooFewArguments op actual => [quoted op.name, toString op.arity.least, toString actual]
  | .tooManyArguments op most actual => [quoted op.name, toString most, toString actual]
  | .varPath kind => [quoted "var", kind.name]
  | .minimumNotANumber | .keysNotAnArray => [quoted "missing_some"]
  | .noElse op count => [quoted op.name, toString count]
  | .reducerIgnoresScope => [quoted "reduce", quoted "accumulator", quoted "current"]

/-- The message of a problem names what it is about. -/
theorem Problem.isPart_message {p : Problem} {term : String} (h : term ∈ p.terms) :
    IsPart term p.message := by
  cases p with
  | extraKeys count first =>
    rcases List.mem_cons.1 h with rfl | h
    · exact (((isPart_append_self _ _).append _).append _).append _
    · rw [List.mem_singleton.1 h]
      exact (isPart_append_self _ _).append _
  | unknownOperator name known =>
    rcases List.mem_cons.1 h with rfl | h
    · exact ((isPart_append_self _ _).append _).append _
    · exact (isPart_intercalate ", " h).append_of_right _
  | tooFewArguments op actual => exact isPart_of_mem_three h
  | tooManyArguments op most actual => exact isPart_of_mem_three h
  | varPath kind =>
    rcases List.mem_cons.1 h with rfl | h
    · have hvar : IsPart (quoted "var")
          "\"var\" path should be a string, number or null, got " := by
        decide +kernel
      exact hvar.append _
    · rw [List.mem_singleton.1 h]
      exact isPart_append_self _ _
  | minimumNotANumber | keysNotAnArray =>
    rw [List.mem_singleton.1 h]
    decide +kernel
  | noElse op count =>
    rcases List.mem_cons.1 h with rfl | h
    · exact (((isPart_self _).append _).append _).append _
    · rw [List.mem_singleton.1 h]
      exact (isPart_append_self _ _).append _
  | reducerIgnoresScope =>
    have hterms : ∀ term ∈ terms .reducerIgnoresScope,
        IsPart term (message .reducerIgnoresScope) := by
      decide +kernel
    exact hterms term h

/-- The message about a path holds the path in quotes. -/
theorem PathWarning.isPart_message (w : PathWarning) :
    IsPart (Problem.quoted w.path) w.message := by
  have hquoted : w.message = "var " ++ Problem.quoted w.path ++ (": " ++ w.miss.message) := by
    apply String.toList_inj.1
    simp [PathWarning.message, Problem.quoted, String.toList_append]
  rw [hquoted]
  exact (isPart_append_self _ _).append _

/-! ## Findings -/

theorem Severity.name_inj {s t : Severity} : s.name = t.name ↔ s = t := by
  cases s <;> cases t <;> decide

/-- What is printed of a finding: its message, the text of its place and its severity. -/
theorem Reported.toValue_inj {f g : Reported} : f.toValue = g.toValue ↔
    f.message = g.message ∧ f.place.text = g.place.text ∧ f.severity = g.severity := by
  simp [Reported.toValue, Severity.name_inj]

/-- Findings of one rule are printed alike only if they are about one node. -/
theorem Reported.toValue_eq_iff {custom : Allowlist} {rule : Value} {f g : Reported}
    (hf : f ∈ (validate custom rule).errors ++ (validate custom rule).warnings)
    (hg : g ∈ (validate custom rule).errors ++ (validate custom rule).warnings) :
    f.toValue = g.toValue ↔
      f.place = g.place ∧ f.message = g.message ∧ f.severity = g.severity := by
  obtain ⟨node, hn, -⟩ := exists_nodeAt_of_mem hf
  obtain ⟨other, ho, -⟩ := exists_nodeAt_of_mem hg
  rw [Reported.toValue_inj]
  constructor
  · rintro ⟨hmessage, htext, hseverity⟩
    exact ⟨eq_of_text_eq hn ho htext, hmessage, hseverity⟩
  · rintro ⟨hplace, hmessage, hseverity⟩
    exact ⟨hmessage, congrArg Place.text hplace, hseverity⟩

/-! ## Reading back -/

namespace CommandLine

/-- What is printed is read back, the end of the line included. -/
theorem read?_printed {v : Value} (hk : v.UniqueKeys) (hd : v.depth ≤ Reader.maxDepth)
    (succeeds : Bool) : Value.read? (Exit.printed v succeeds).stdout = some v := by
  have hline : Reader.Blank ['\n'] := Reader.blank_singleton rfl
  have h := (Value.writes_pretty 0 v).read?_eq hline hk hd
  rwa [String.ofList_append] at h

section
variable (report : Report) (rule : Value) (data : Option Value)

theorem uniqueKeys_reportValue : (reportValue report rule data).UniqueKeys := by
  rw [← Value.hasUniqueKeys_iff]
  have hfindings : ∀ findings : List Reported,
      Value.itemsHaveUniqueKeys (findings.map Reported.toValue) = true := by
    intro findings
    rw [Value.itemsHaveUniqueKeys_iff, List.forall_mem_map]
    intro f _
    rfl
  have hpaths : ∀ warnings : List PathWarning,
      Value.itemsHaveUniqueKeys (warnings.map fun w => .str w.message) = true := by
    intro warnings
    rw [Value.itemsHaveUniqueKeys_iff, List.forall_mem_map]
    intro w _
    rfl
  cases data <;>
    simp [reportValue, Report.entries, Value.hasUniqueKeys, Value.entriesHaveUniqueKeys, hfindings,
      hpaths]

theorem depth_reportValue_le : (reportValue report rule data).depth ≤ 3 := by
  have hfindings : ∀ findings : List Reported,
      Value.depthOfItems (findings.map Reported.toValue) ≤ 1 := by
    intro findings
    refine Value.depthOfItems_le (List.forall_mem_map.2 fun f _ => ?_)
    exact Nat.le_refl 1
  have hpaths : ∀ warnings : List PathWarning,
      Value.depthOfItems (warnings.map fun w => .str w.message) ≤ 0 := by
    intro warnings
    refine Value.depthOfItems_le (List.forall_mem_map.2 fun w _ => ?_)
    exact Nat.le_refl 0
  have herrors := hfindings report.errors
  have hwarnings := hfindings report.warnings
  cases data with
  | none =>
    simp only [reportValue, Report.entries, List.append_nil, Value.depth, Value.depthOfEntries]
    omega
  | some data =>
    have hdata := hpaths (pathWarnings data rule)
    simp only [reportValue, Report.entries, List.cons_append, List.nil_append, Value.depth,
      Value.depthOfEntries]
    omega

end

section
variable {files : String → Option String} {ruleText : String} {dataText : Option String}
variable {custom : List String} {rule : Value} {data : Option Value}

/-- The report that `validate` prints is read back. -/
theorem read?_stdout_validate
    (h : LoadsAs files rule data (.validate ruleText dataText custom)) :
    Value.read? (run files (.validate ruleText dataText custom)).stdout =
      some (reportValue (validate custom rule) rule data) := by
  rw [run_validate h]
  have hdepth := depth_reportValue_le (validate custom rule) rule data
  exact read?_printed (uniqueKeys_reportValue _ rule data) (Nat.le_trans hdepth (by decide)) _

/-- The value that `eval` prints is read back, if texts can carry it. -/
theorem read?_stdout_eval {v : Value} (h : LoadsAs files rule data (.eval ruleText dataText))
    (hv : (Evaluator.builtin.evaluate rule (data.getD (.obj []))).result = .ok v)
    (hk : v.UniqueKeys) (hd : v.depth ≤ Reader.maxDepth) :
    Value.read? (run files (.eval ruleText dataText)).stdout = some v := by
  rw [run_eval_of_ok h hv]
  exact read?_printed hk hd true

end

end CommandLine

end RuleLogic
