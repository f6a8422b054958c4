import RuleLogic.Evaluator
import RuleLogic.Validation.DataPaths
import RuleLogic.Json.Reader

/-!
# The command line

`validate RULE` reports on a rule and `eval RULE [DATA]` evaluates one.  A rule or data is JSON
text, or `@` and the name of a file that holds it.  What a command does depends only on its
arguments and on the files, so all of it is a function.

    run files (.validate rule data custom)    exits with 0 iff both load and the rule is valid
    run files (.eval rule data)               exits with 0 iff both load and the rule evaluates
-/

namespace RuleLogic

/-- A command, with its texts as they were given. -/
inductive Command where
  | validate (rule : String) (data : Option String) (custom : List String)
  | eval (rule : String) (data : Option String)
deriving DecidableEq

/-- The texts of a command that may name files. -/
def Command.texts : Command → List String
  | .validate rule data _ => rule :: data.toList
  | .eval rule data => rule :: data.toList

namespace CommandLine

/-! ## Arguments -/

inductive Subcommand where
  | validate | eval
deriving DecidableEq

def Subcommand.ofName? (name : String) : Option Subcommand :=
  if name = "validate" then some .validate else if name = "eval" then some .eval else none

/-- The options; each takes a value. -/
inductive Flag where
  | logLevel | data | customOp
deriving DecidableEq

/-- The option of a name behind two dashes.  Only the log level may stand everywhere. -/
def Flag.ofName? (within : Option Subcommand) (name : List Char) : Option Flag :=
  if name = "log-level".toList then some .logLevel
  else if within ≠ some .validate then none
  else if name = "data".toList then some .data
  else if name = "custom-op".toList then some .customOp
  else none

/-- What has been read of the arguments. -/
structure Parse where
  subcommand : Option Subcommand
  /-- An option that waits for its value. -/
  pending : Option Flag
  /-- Behind `--` nothing is an option. -/
  literal : Bool
  /-- Has the log level been given since the subcommand began? -/
  hasLogLevel : Bool
  words : List String
  data : Option String
  custom : List String

namespace Parse

def start : Parse := ⟨none, none, false, false, [], none, []⟩

/-- An option with its value; only custom operators may be given more than once. -/
def setFlag (p : Parse) (value : String) : Flag → Option Parse
  | .logLevel =>
    if p.hasLogLevel then none else some { p with pending := none, hasLogLevel := true }
  | .data => if p.data.isSome then none else some { p with pending := none, data := some value }
  | .customOp => some { p with pending := none, custom := p.custom ++ [value] }

/-- An option, as it is written behind its dashes: with a value behind `=`, or waiting for one. -/
def readFlag (p : Parse) (text : List Char) : Option Parse := do
  let flag ← Flag.ofName? p.subcommand (text.takeWhile (· != '='))
  match text.dropWhile (· != '=') with
  | [] => some { p with pending := some flag }
  | _ :: value => p.setFlag (String.ofList value) flag

/-- A word that is no option: the subcommand, or one of its texts. -/
def readWord (p : Parse) (word : String) : Option Parse :=
  match p.subcommand with
  | some _ => some { p with words := p.words ++ [word] }
  | none =>
    if p.literal then none
    else (Subcommand.ofName? word).map fun sub =>
      { p with subcommand := some sub, hasLogLevel := false }

/-- Does an argument look like an option? -/
def isDashed (argument : String) : Bool :=
  match argument.toList with
  | '-' :: _ :: _ => true
  | _ => false

/-- Read one more argument; `none` when the arguments are misused.  The requests for help and for
the version are left out: `--help`, `-h`, `--version`, `-V` and the word `help` in the place of a
subcommand, which print a text and succeed, are read as misuse here. -/
def read (p : Parse) (argument : String) : Option Parse :=
  match p.pending with
  | some flag => if isDashed argument then none else p.setFlag argument flag
  | none =>
    if p.literal then p.readWord argument
    else if argument = "--" then some { p with literal := true }
    else
      match argument.toList with
      | '-' :: '-' :: text => p.readFlag text
      | _ => if isDashed argument then none else p.readWord argument

/-- The command that has been read, if it is complete. -/
def command? (p : Parse) : Option Command :=
  match p.pending, p.subcommand, p.words with
  | none, some .validate, [rule] => some (.validate rule p.data p.custom)
  | none, some .eval, [rule] => some (.eval rule none)
  | none, some .eval, [rule, data] => some (.eval rule (some data))
  | _, _, _ => none

end Parse

/-- The command that arguments give; `none` when they are misused. -/
def parse? (arguments : List String) : Option Command :=
  (arguments.foldlM Parse.read Parse.start).bind Parse.command?

/-! ## Loading -/

/-- Why a text does not load. -/
inductive LoadError where
  | cannotRead (path : String)
  | invalidJson

/-- The message of a text that does not load.  The words behind the colon stand for a cause that
only the system, or the reader of JSON, can give. -/
def LoadError.message : LoadError → String
  | .cannotRead path => "cannot read " ++ path ++ ": no readable file of this name"
  | .invalidJson => "invalid JSON: not the text of one value"

/-- The file that an argument names, if it begins with `@`. -/
def filePath? (argument : String) : Option String :=
  match argument.toList with
  | '@' :: path => some (String.ofList path)
  | _ => none

/-- The text that an argument gives: that of the file it names, or else its own. -/
def textOf (files : String → Option String) (argument : String) : Except LoadError String :=
  match filePath? argument with
  | none => .ok argument
  | some path =>
    match files path with
    | some text => .ok text
    | none => .error (.cannotRead path)

/-- The value that an argument gives. -/
def load (files : String → Option String) (argument : String) : Except LoadError Value := do
  match Value.read? (← textOf files argument) with
  | some v => pure v
  | none => throw .invalidJson

/-- The value of an argument that may be absent. -/
def loadOptional (files : String → Option String) :
    Option String → Except LoadError (Option Value)
  | none => .ok none
  | some argument => (load files argument).map some

/-! ## Running -/

/-- What a command leaves behind. -/
structure Exit where
  code : Nat
  stdout : String
  stderr : String
deriving DecidableEq

def Exit.failure (message : String) : Exit := ⟨1, "", message ++ "\n"⟩

/-- A printed value, and whether the command succeeds. -/
def Exit.printed (v : Value) (succeeds : Bool) : Exit :=
  ⟨if succeeds then 0 else 1, v.toPrettyText ++ "\n", ""⟩

/-- The report on a rule as it is printed, with the warnings on its paths if there is data. -/
def reportValue (report : Report) (rule : Value) (data : Option Value) : Value :=
  .obj (report.entries ++ match data with
    | some data =>
      [("data_paths", .arr ((pathWarnings data rule).map fun w => .str w.message))]
    | none => [])

def run (files : String → Option String) : Command → Exit
  | .validate ruleText dataText custom =>
    match load files ruleText, loadOptional files dataText with
    | .ok rule, .ok data =>
      let report := validate custom rule
      .printed (reportValue report rule data) report.valid
    | .error e, _ => .failure e.message
    | _, .error e => .failure e.message
  | .eval ruleText dataText =>
    match load files ruleText, loadOptional files dataText with
    | .ok rule, .ok data =>
      match (Evaluator.builtin.evaluate rule (data.getD (.obj []))).result with
      | .ok v => .printed v true
      | .error e => .failure e.message
    | .error e, _ => .failure e.message
    | _, .error e => .failure e.message

/-- Exit code of arguments that are misused. -/
def usageCode : Nat := 2

end CommandLine

end RuleLogic
