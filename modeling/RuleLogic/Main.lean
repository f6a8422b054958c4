import RuleLogic.CommandLine

/-!
# The program

Reads the files that the arguments name, runs the command and leaves its output and exit code.
-/

open RuleLogic CommandLine

/-- The content of a file, if it can be read as text. -/
def readFile? (path : String) : IO (Option String) := do
  try
    let text ← IO.FS.readFile path
    pure (some text)
  catch _ => pure none

/-- The readable files among those that texts name, with their contents. -/
def readNamed : List String → IO (List (String × String))
  | [] => pure []
  | text :: rest => do
    let more ← readNamed rest
    match filePath? text with
    | none => pure more
    | some path =>
      match ← readFile? path with
      | some content => pure ((path, content) :: more)
      | none => pure more

def main (arguments : List String) : IO UInt32 := do
  match parse? arguments with
  | none =>
    IO.eprintln "usage: validate RULE [--data DATA] [--custom-op NAME] | eval RULE [DATA]"
    pure usageCode.toUInt32
  | some command =>
    let files ← readNamed command.texts
    let exit := run (fun path => files.lookup path) command
    IO.print exit.stdout
    IO.eprint exit.stderr
    pure exit.code.toUInt32
