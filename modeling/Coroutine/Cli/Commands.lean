import Coroutine.Cli.Arguments
import Coroutine.Cli.Console
import Coroutine.Cli.Toml
import Coroutine.Compiler
import Coroutine.Graph.Text
import Coroutine.Json.Reader
import Coroutine.Machine.Generator
import Coroutine.Program.Text
import Coroutine.Scheduler
import Coroutine.Tree.Document

/-!
# Commands

What the commands do, as a function of the files that they read: `Invocation.execute` gives the exit
code and all that is written.
-/

namespace Coroutine.Cli

/-- The contents of files, or the reason why one cannot be read. -/
abbrev Files := String → Except String String

/-- The reason why a file that does not exist cannot be read. -/
def noSuchFile : String := "No such file or directory (os error 2)"

/-- What a command leaves behind. -/
structure Transcript where
  exit : Nat := 0
  stdout : String := ""
  stderr : String := ""
deriving DecidableEq, Repr

/-! ## Failures -/

/-- Why a command failed, and the cause of that. -/
structure Failure where
  message : String
  cause : Option String := none
deriving DecidableEq, Repr

namespace Failure

/-- A failure on one line. -/
def line (f : Failure) : String := f.message ++ (f.cause.elim "" fun c => ": " ++ c)

/-- Indents every line of a text. -/
def indent (text : String) : String :=
  "\n".intercalate ((text.splitOn "\n").map fun line => "    " ++ line)

/-- A failure as it ends a command. -/
def text (f : Failure) : String :=
  "Error: " ++ f.message ++ (f.cause.elim "" fun c => "\n\nCaused by:\n" ++ indent c) ++ "\n"

/-- A construction error as a failure. -/
def ofBuild (e : BuildError) : Failure := { message := e.message }

/-- A run error as a failure. -/
def ofRun (e : RunError) : Failure := { message := e.message }

end Failure

/-! ## Files -/

/-- Reads the options of a settings file, all of which stand in one table. -/
def optionsOf? : Json → Option Options
  | .object [] => some {}
  | .object [("engine", .object fields)] => Options.ofJson? (.object fields)
  | _ => none

/-- Loads the options; without a settings file they are the default ones. -/
def loadOptions (files : Files) : Option String → Except Failure Options
  | none => .ok {}
  | some file =>
    match files file with
    | .error cause => .error { message := "failed to read config " ++ file, cause := some cause }
    | .ok text =>
      match (Toml.parse text).bind optionsOf? with
      | some o => .ok o
      | none => .error { message := "invalid config " ++ file }

/-- The last part of a path, unless it leads upwards. -/
def fileName? (path : String) : Option String :=
  match ((path.splitOn "/").filter fun part => part != "" && part != ".").getLast? with
  | some ".." | none => none
  | some name => some name

/-- The name of a file without its extension. A name that starts with its only dot has none. -/
def fileStem? (path : String) : Option String := do
  let name ← fileName? path
  match name.toList.reverse.span (· != '.') with
  | (_, '.' :: stem@(_ :: _)) => return String.ofList stem.reverse
  | _ => return name

/-- A lambda, and the number of exceptions it holds. -/
structure Loaded where
  lambda : Lambda
  exceptions : Nat

/-- Reads the lambda of a document. -/
def lambda? (text : String) : Option Loaded := do
  let j ← Json.read text
  let (lambda, exceptions) ← (Lambda.decode j).run?
  return ⟨lambda, exceptions⟩

/-- Loads a lambda. One without a name is named for its file. -/
def loadLambda (files : Files) (file : String) : Except Failure Loaded :=
  match files file with
  | .error cause => .error { message := "failed to read " ++ file, cause := some cause }
  | .ok text =>
    match lambda? text with
    | none => .error { message := file ++ " is not a valid lambda" }
    | some l => .ok { l with lambda.name := l.lambda.name <|> fileStem? file }

/-! ## Checking -/

/-- The await binders at hand. -/
def binders : Expr.Resolver := Registry.builtin.binder

/-- Checks a file. Gives a summary of its lambda. -/
def checkFile (files : Files) (o : Options) (file : String) : Except Failure String := do
  let l ← loadLambda files file
  let facts ← l.lambda.check.mapError .ofBuild
  let compiled ← (l.lambda.compile binders o).mapError .ofBuild
  return "(" ++ l.lambda.kind.name ++ ", " ++ toString facts.suspendPoints ++ " suspend point(s), "
    ++ toString compiled.graph.liveStates.length ++ " state(s))"

/-- What is shown for a checked file. -/
def checkLine (colored : Bool) (file : String) : Except Failure String → String
  | .ok summary =>
    (Style.badge .green).paint colored " OK " ++ " " ++ file ++ " "
      ++ Style.info.paint colored summary ++ "\n"
  | .error f => (Style.badge .red).paint colored " FAIL " ++ " " ++ file ++ ": " ++ f.line ++ "\n"

/-- Checks files. -/
def checkFiles (files : Files) (o : Options) (colored : Bool) (names : List String) : Transcript :=
  let results := names.map fun file => (file, checkFile files o file)
  let failed := (results.filter fun (_, r) => !r.isOk).length
  let summary :=
    if failed = 0 then
      Style.success.paint colored (toString names.length ++ " file(s) checked")
    else
      Style.heading.paint colored
        (toString failed ++ " of " ++ toString names.length ++ " file(s) failed")
  { exit := if failed = 0 then 0 else 1
    stdout := String.join (results.map fun (file, r) => checkLine colored file r)
      ++ "\n" ++ summary ++ "\n" }

/-! ## Lowering -/

/-- A listing under a heading. -/
def listing (colored : Bool) (heading text : String) : String :=
  Style.heading.paint colored heading ++ "\n" ++ text ++ "\n"

/-- Shows the lowered forms of a lambda: the one asked for, or both. -/
def showLowered (files : Files) (o : Options) (colored : Bool) (file : String)
    (graph linear : Bool) : Except Failure String := do
  let l ← loadLambda files file
  let compiled ← (l.lambda.compile binders o).mapError .ofBuild
  let graphPart := listing colored "== state graph ==" compiled.graph.text
  let linearPart := listing colored "== linear ==" compiled.program.text
  return (if graph || !linear then graphPart else "") ++ if linear || !graph then linearPart else ""

/-! ## Running -/

/-- Reads an argument: a document of a value, or else the string itself. -/
def argument (arg : String) : Decoder Value := fun exceptions =>
  match (Json.read arg).bind fun j => (Value.decode j).run exceptions with
  | some found => some found
  | none => some (.str arg, exceptions)

/-- Writes a value on a line. -/
def showValue (v : Value) (w : World Console) : World Console :=
  { w with host := w.host.writeLine v.text }

/-- Writes the values of a generator, one on a line. Gives the error that ended it, if one did. -/
def showItems : Nat → Generator → World Console → Option (Option RunError × World Console)
  | 0, _, _ => none
  | fuel + 1, g, w =>
    match g.moveNext Console.env fuel w with
    | none => none
    | some ((.error e, _), w) => some (some e, w)
    | some ((.ok false, _), w) => some (none, w)
    | some ((.ok true, g), w) => showItems fuel g (showValue g.current w)

/-- Runs a machine to its end and writes its values. Gives the error that ended it, if one did. -/
def finish (fuel : Nat) (kind : LambdaKind) (m : Machine) (w : World Console) :
    Option (Option RunError × World Console) :=
  if kind = .generator then showItems fuel { machine := m } w
  else
    (Scheduler.blockOn Console.env fuel { world := w } m).map fun ((r, _), s) =>
      match r with
      | .ok v => (none, showValue v s.world)
      | .error e => (some e, s.world)

/-- Runs a lambda with arguments. -/
def runLambda (fuel : Nat) (engine : Engine) (o : Options) (l : Loaded) (args : List String) :
    Option (Option Failure × String) := do
  let (values, exceptions) ← (args.mapM argument).run l.exceptions
  let w : World Console := { exceptions, host := {} }
  match l.lambda.launch engine binders o values w with
  | .error e => return (some (.ofRun e), "")
  | .ok (m, w) =>
    let (error, w) ← finish fuel l.lambda.kind m w
    let failure := error.map fun e =>
      { message := l.lambda.displayName ++ " failed", cause := some e.message }
    return (failure, w.host.text)

/-! ## Invocations -/

/-- What a failed command leaves behind, after it has written something. -/
def Failure.transcript (f : Failure) (stdout : String) : Transcript :=
  { exit := 1, stdout, stderr := f.text }

/-- What a command leaves behind that fails before it writes or succeeds. -/
def transcriptOf : Except Failure String → Transcript
  | .ok stdout => { stdout }
  | .error f => f.transcript ""

/-- The options of a command that may go without the optional passes. -/
def passes (o : Options) (unoptimized : Bool) : Options :=
  if unoptimized then o.withoutPasses else o

/-- Executes a command; `none` means that the fuel did not suffice. -/
def Command.execute (fuel : Nat) (files : Files) (o : Options) (colored : Bool) :
    Command → Option Transcript
  | .check names => some (checkFiles files o colored names)
  | .lower file graph linear unoptimized =>
    some (transcriptOf (showLowered files (passes o unoptimized) colored file graph linear))
  | .run file interpret args unoptimized stepLimit =>
    match loadLambda files file with
    | .error f => some (f.transcript "")
    | .ok l =>
      let o := passes o unoptimized
      let o := stepLimit.elim o o.withStepLimit
      let engine := if interpret then .interpreted else .compiled
      (runLambda fuel engine o l args).map fun (failure, stdout) =>
        failure.elim { stdout } (·.transcript stdout)

/-- Executes an invocation; `none` means that the fuel did not suffice. -/
def Invocation.execute (fuel : Nat) (files : Files) (s : Surroundings) (i : Invocation) :
    Option Transcript :=
  match loadOptions files i.config with
  | .error f => some (f.transcript "")
  | .ok o => i.command.execute fuel files o (i.color.colored s)

/-- Executes a command line; `none` means that the fuel did not suffice. -/
def execute (fuel : Nat) (files : Files) (s : Surroundings) (args : List String) :
    Option Transcript :=
  match Invocation.parse args with
  | .error e => some { exit := 2, stderr := "error: " ++ e.message ++ "\n" }
  | .ok i => i.execute fuel files s

end Coroutine.Cli
