import Coroutine.Cli.Commands

/-!
# The command line

Reads the files that the command line names, executes the command, and writes what it leaves behind.
-/

open Coroutine.Cli

/-- Why a file cannot be read. -/
def readFailure : IO.Error → String
  | .noFileOrDirectory .. => noSuchFile
  | .permissionDenied .. => "Permission denied (os error 13)"
  | e => toString e

/-- The contents of a file, or why it cannot be read. -/
def readText (name : String) : IO (Except String String) := do
  try
    return .ok (← IO.FS.readFile name)
  catch e =>
    return .error (readFailure e)

/-- The contents of files by name. -/
def readTexts (names : List String) : IO Files := do
  let texts ← names.mapM fun name => return (name, ← readText name)
  return fun name => (texts.lookup name).getD (.error noSuchFile)

/-- More steps than any run takes. -/
def allFuel : Nat := UInt64.size

def main (args : List String) : IO UInt32 := do
  let names := match Invocation.parse args with
    | .ok i => i.files
    | .error _ => []
  let files ← readTexts names
  let noColor := (← IO.getEnv "NO_COLOR").isSome
  let terminal ← IO.getEnv "TERM"
  match execute allFuel files { noColor, terminal } args with
  | none => return 1
  | some t =>
    IO.print t.stdout
    IO.eprint t.stderr
    return t.exit.toUInt32
