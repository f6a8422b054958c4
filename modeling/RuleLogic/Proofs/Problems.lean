import RuleLogic.Validation

/-!
# What validation reports, as lists

The walk of validation hands one report on from check to check.  Each check adds the problems of a
list to it, and these depend on the node alone.  So a report is the list of all findings, taken up
one after the other, each as an error or as a warning according to its problem.

    walk custom place r rule = r.addAll (findings custom place rule)                    (walk_eq)
    (validate custom rule).errors are the findings that are errors, in order  (errors_validate)
    (validate custom rule).valid = true ↔ (validate custom rule).errors = []
                                                               (isConsistent_validate)
-/

namespace RuleLogic

/-- How a problem is reported. -/
def Problem.severity : Problem → Severity
  | .extraKeys .. | .varPath _ | .noElse .. | .reducerIgnoresScope => .warning
  | .unknownOperator .. | .tooFewArguments .. | .tooManyArguments .. | .minimumNotANumber
  | .keysNotAnArray => .error

def Finding.severity (f : Finding) : Severity := f.problem.severity

namespace Validation

/-! ## One node -/

/-- Too few or too many arguments. -/
def arityProblems (op : Operator) (count : Nat) : List Problem :=
  (if count < op.arity.least then [.tooFewArguments op count] else [])
    ++ match op.arity.most? with
      | some most => if most < count then [.tooManyArguments op most count] else []
      | none => []

/-- A path of `var` that can be no path. -/
def varProblems : List Value → List Problem
  | .bool _ :: _ => [.varPath .boolean]
  | .arr _ :: _ => [.varPath .array]
  | _ => []

/-- Operands of `missing_some` that are not written as a number and a list of keys. -/
def missingSomeProblems (arguments : List Value) : List Problem :=
  (if arguments.head?.any (·.kind != .number) then [.minimumNotANumber] else [])
    ++ if arguments[1]?.any (·.kind != .array) then [.keysNotAnArray] else []

/-- Conditions and branches without a last branch for none of them. -/
def choiceProblems (op : Operator) (count : Nat) : List Problem :=
  if 3 ≤ count && count % 2 == 0 then [.noElse op count] else []

/-- A reducer whose text mentions neither of the names it is given. -/
def reduceProblems : List Value → List Problem
  | _ :: .obj entries :: _ =>
    let text := Value.compact (.obj entries)
    if Text.hasPart "accumulator".toList text || Text.hasPart "current".toList text then []
    else [.reducerIgnoresScope]
  | _ => []

/-- What is wrong with the arguments of a built-in operator, apart from their number. -/
def shapeProblems (op : Operator) (arguments : List Value) : List Problem :=
  match op with
  | .var => varProblems arguments
  | .missingSome => missingSomeProblems arguments
  | .choose => choiceProblems op arguments.length
  | .ternary => choiceProblems op arguments.length
  | .reduce => reduceProblems arguments
  | _ => []

/-- What is wrong with an application of a known operator, its arguments apart. -/
def operatorProblems (name : String) (arguments : List Value) : List Problem :=
  match Operator.ofName? name with
  | some op => arityProblems op arguments.length ++ shapeProblems op arguments
  | none => []

/-- Keys behind the first. -/
def keyProblems (name : String) (count : Nat) : List Problem :=
  if 1 < count then [.extraKeys count name] else []

/-- What is wrong with an object itself, that has `count` keys and applies an operator. -/
def nodeProblems (custom : Allowlist) (name : String) (v : Value) (count : Nat) : List Problem :=
  keyProblems name count
    ++ if custom.accepts name then operatorProblems name (argumentsOf v)
      else [.unknownOperator name custom.known]

/-! ## Whole rules -/

mutual

/-- The findings at a place and below it. -/
def findings (custom : Allowlist) (place : Place) : Value → List Finding
  | .arr items => itemFindings custom (place ++ [.item ·]) 0 items
  | .obj [] => []
  | .obj ((name, .arr items) :: rest) =>
    (nodeProblems custom name (.arr items) (rest.length + 1)).map (⟨place, ·⟩)
      ++ if custom.accepts name then
          itemFindings custom (place ++ [.argument name ·]) 0 items
        else []
  | .obj ((name, v) :: rest) =>
    (nodeProblems custom name v (rest.length + 1)).map (⟨place, ·⟩)
      ++ if custom.accepts name then findings custom (place ++ [.bare name]) v else []
  | _ => []

/-- The findings of the nodes of a list, from an index on, each at its own place. -/
def itemFindings (custom : Allowlist) (place : Nat → Place) (index : Nat) :
    List Value → List Finding
  | [] => []
  | v :: rest => findings custom (place index) v ++ itemFindings custom place (index + 1) rest

end

end Validation

namespace Report

/-! ## Reports from findings -/

/-- The report with one more finding. -/
def add (r : Report) (f : Finding) : Report :=
  match f.severity with
  | .error => r.error f
  | .warning => r.warn f

/-- The report with more findings, one after the other. -/
def addAll (r : Report) (fs : List Finding) : Report := fs.foldl add r

def ofFindings (fs : List Finding) : Report := empty.addAll fs

theorem addAll_append (r : Report) (fs more : List Finding) :
    r.addAll (fs ++ more) = (r.addAll fs).addAll more :=
  List.foldl_append

/-- Findings of one severity, as they are reported. -/
def reported (severity : Severity) (fs : List Finding) : List Reported :=
  (fs.filter (·.severity = severity)).map (⟨·, severity⟩)

/-- Errors and warnings are added each to their own list, and one error makes the rule invalid. -/
theorem addAll_eq (r : Report) (fs : List Finding) : r.addAll fs =
    ⟨r.valid && (reported .error fs).isEmpty, r.errors ++ reported .error fs,
      r.warnings ++ reported .warning fs⟩ := by
  induction fs generalizing r with
  | nil => simp [addAll, reported]
  | cons f rest ih =>
    have hrest : r.addAll (f :: rest) = (r.add f).addAll rest := rfl
    rw [hrest, ih, add]
    cases hs : f.severity <;> simp [error, warn, reported, hs]

end Report

/-! ## Each check adds its problems -/

/-- The report with problems of the node at a place. -/
def Report.addProblems (r : Report) (place : Place) (problems : List Problem) : Report :=
  r.addAll (problems.map (⟨place, ·⟩))

theorem Report.addProblems_append (r : Report) (place : Place) (problems more : List Problem) :
    r.addProblems place (problems ++ more) =
      (r.addProblems place problems).addProblems place more := by
  rw [addProblems, List.map_append, addAll_append]
  rfl

namespace Validation

variable (place : Place) (op : Operator) (name : String) (count : Nat) (arguments : List Value)
variable (r : Report)

theorem checkKeys_eq :
    checkKeys place name count r = r.addProblems place (keyProblems name count) := by
  unfold checkKeys keyProblems
  split <;> rfl

theorem checkArity_eq :
    checkArity place op count r = r.addProblems place (arityProblems op count) := by
  have hleast (r : Report) :
      (if count < op.arity.least then r.error ⟨place, .tooFewArguments op count⟩ else r) =
        r.addProblems place
          (if count < op.arity.least then [.tooFewArguments op count] else []) := by
    split <;> rfl
  unfold checkArity arityProblems
  rw [Report.addProblems_append, ← hleast]
  cases op.arity.most? with
  | none => rfl
  | some most =>
    dsimp only
    split <;> rfl

theorem checkVar_eq :
    checkVar place arguments r = r.addProblems place (varProblems arguments) := by
  match arguments with
  | [] | .null :: _ | .bool _ :: _ | .num _ :: _ | .str _ :: _ | .arr _ :: _ | .obj _ :: _ => rfl

theorem checkMissingSome_eq : checkMissingSome place arguments r =
    r.addProblems place (missingSomeProblems arguments) := by
  unfold checkMissingSome missingSomeProblems
  rw [Report.addProblems_append]
  dsimp only
  split <;> split <;> rfl

theorem checkChoice_eq :
    checkChoice place op count r = r.addProblems place (choiceProblems op count) := by
  unfold checkChoice choiceProblems
  split <;> rfl

theorem checkReduce_eq :
    checkReduce place arguments r = r.addProblems place (reduceProblems arguments) := by
  match arguments with
  | [] | [_] | _ :: .null :: _ | _ :: .bool _ :: _ | _ :: .num _ :: _ | _ :: .str _ :: _
  | _ :: .arr _ :: _ => rfl
  | _ :: .obj entries :: _ =>
    dsimp only [checkReduce, reduceProblems]
    split <;> rfl

theorem checkShape_eq :
    checkShape place op arguments r = r.addProblems place (shapeProblems op arguments) := by
  cases op with
  | var => exact checkVar_eq place arguments r
  | missingSome => exact checkMissingSome_eq place arguments r
  | choose => exact checkChoice_eq place .choose arguments.length r
  | ternary => exact checkChoice_eq place .ternary arguments.length r
  | reduce => exact checkReduce_eq place arguments r
  | _ => rfl

theorem checkArguments_eq : checkArguments place name arguments r =
    r.addProblems place (operatorProblems name arguments) := by
  unfold checkArguments operatorProblems
  cases Operator.ofName? name with
  | none => rfl
  | some op => rw [Report.addProblems_append, ← checkArity_eq, ← checkShape_eq]

/-- What a node adds before its parts are walked, if its operator is known, or else at all. -/
theorem checkKeys_then (custom : Allowlist) (v : Value) (walked : Report → Report) :
    (if custom.accepts name then
        walked (checkArguments place name (argumentsOf v) (checkKeys place name count r))
      else (checkKeys place name count r).error ⟨place, .unknownOperator name custom.known⟩) =
    if custom.accepts name then walked (r.addProblems place (nodeProblems custom name v count))
      else r.addProblems place (nodeProblems custom name v count) := by
  unfold nodeProblems
  rw [Report.addProblems_append, checkKeys_eq]
  split
  · rw [checkArguments_eq]
  · rfl

end Validation

/-! ## The walk adds its findings -/

namespace Validation

variable (custom : Allowlist)

mutual

/-- The walk takes up the findings of the rule, whatever has been reported before. -/
theorem walk_eq (place : Place) (r : Report) (rule : Value) :
    walk custom place r rule = r.addAll (findings custom place rule) := by
  match rule with
  | .null | .bool _ | .num _ | .str _ | .obj [] => rfl
  | .arr items => exact walkItems_eq _ 0 r items
  | .obj ((name, .arr items) :: rest) =>
    rw [walk, findings, Report.addAll_append]
    refine (checkKeys_then place name _ r custom (.arr items)
      fun r => walkItems custom (place ++ [.argument name ·]) 0 r items).trans ?_
    split
    · exact walkItems_eq _ 0 _ items
    · rfl
  | .obj ((name, .obj entries) :: rest) =>
    simp only [walk, findings, Report.addAll_append]
    refine (checkKeys_then place name _ r custom (.obj entries)
      fun r => walk custom (place ++ [.bare name]) r (.obj entries)).trans ?_
    split
    · exact walk_eq _ _ (.obj entries)
    · rfl
  | .obj ((name, .null) :: rest) | .obj ((name, .bool _) :: rest) | .obj ((name, .num _) :: rest)
  | .obj ((name, .str _) :: rest) =>
    -- there is nothing to walk below
    simp only [walk, findings, Report.addAll_append]
    refine (checkKeys_then place name _ r custom _ id).trans ?_
    split <;> rfl

theorem walkItems_eq (place : Nat → Place) (index : Nat) (r : Report) (items : List Value) :
    walkItems custom place index r items = r.addAll (itemFindings custom place index items) := by
  match items with
  | [] => rfl
  | v :: rest =>
    rw [walkItems, itemFindings, Report.addAll_append, walk_eq, walkItems_eq]

end

end Validation

/-! ## What every report keeps -/

/-- The verdict of a report agrees with its errors, and each finding is in the list of the severity
that it was reported with. -/
structure Report.IsConsistent (r : Report) : Prop where
  valid_iff : r.valid = true ↔ r.errors = []
  severity_of_mem_errors : ∀ f ∈ r.errors, f.severity = .error
  severity_of_mem_warnings : ∀ f ∈ r.warnings, f.severity = .warning

namespace Report

theorem isConsistent_empty : empty.IsConsistent := ⟨iff_of_true rfl rfl, nofun, nofun⟩

namespace IsConsistent

variable {r : Report} (h : r.IsConsistent)

include h

theorem error (f : Finding) : (r.error f).IsConsistent where
  valid_iff := iff_of_false Bool.false_ne_true (List.concat_ne_nil _ _)
  severity_of_mem_errors g hg := by
    rcases List.mem_append.1 hg with hg | hg
    · exact h.severity_of_mem_errors g hg
    · rw [List.mem_singleton.1 hg]
  severity_of_mem_warnings := h.severity_of_mem_warnings

theorem warn (f : Finding) : (r.warn f).IsConsistent where
  valid_iff := h.valid_iff
  severity_of_mem_errors := h.severity_of_mem_errors
  severity_of_mem_warnings g hg := by
    rcases List.mem_append.1 hg with hg | hg
    · exact h.severity_of_mem_warnings g hg
    · rw [List.mem_singleton.1 hg]

theorem addAll (fs : List Finding) : (r.addAll fs).IsConsistent := by
  induction fs generalizing r with
  | nil => exact h
  | cons f rest ih =>
    refine ih ?_
    unfold Report.add
    split
    · exact h.error f
    · exact h.warn f

/-- The walk keeps the report consistent that it is handed. -/
theorem walk (custom : Allowlist) (place : Place) (rule : Value) :
    (Validation.walk custom place r rule).IsConsistent := by
  rw [Validation.walk_eq]
  exact h.addAll _

end IsConsistent

end Report

/-! ## Reports on rules -/

section
variable {custom : Allowlist} {rule : Value}

theorem isConsistent_validate : (validate custom rule).IsConsistent :=
  Report.isConsistent_empty.walk custom [] rule

theorem valid_eq_isEmpty :
    (validate custom rule).valid = (validate custom rule).errors.isEmpty := by
  rw [Bool.eq_iff_iff, isConsistent_validate.valid_iff, List.isEmpty_iff]

theorem validate_eq : validate custom rule = .ofFindings (Validation.findings custom [] rule) :=
  Validation.walk_eq custom [] .empty rule

theorem errors_validate : (validate custom rule).errors =
    Report.reported .error (Validation.findings custom [] rule) := by
  rw [validate_eq, Report.ofFindings, Report.addAll_eq]
  exact List.nil_append _

theorem warnings_validate : (validate custom rule).warnings =
    Report.reported .warning (Validation.findings custom [] rule) := by
  rw [validate_eq, Report.ofFindings, Report.addAll_eq]
  exact List.nil_append _

end

end RuleLogic
