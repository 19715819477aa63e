import Coroutine.Cli.Style

/-!
# Command lines

Options and names of files may stand in any order; the first name is that of the command. The value
of an option follows it, or is joined to it by an equals sign. After `--` only names follow.
-/

namespace Coroutine.Cli

/-- What to do. -/
inductive Command where
  /-- Check that files hold well-formed lambdas. -/
  | check (files : List String)
  /-- Show the lowered forms of a lambda. -/
  | lower (file : String) (graph linear unoptimized : Bool)
  /-- Run a lambda. -/
  | run (file : String) (interpret : Bool) (args : List String) (unoptimized : Bool)
      (stepLimit : Option Nat)
deriving DecidableEq, Repr

/-- A command with the options that all commands share. -/
structure Invocation where
  config : Option String := none
  color : ColorMode := .auto
  command : Command
deriving DecidableEq, Repr

/-- The files that a command reads. -/
def Command.files : Command → List String
  | .check files => files
  | .lower file .. | .run file .. => [file]

/-- The files that an invocation reads. -/
def Invocation.files (i : Invocation) : List String := i.config.toList ++ i.command.files

/-- What is wrong with a command line. -/
inductive UsageError where
  | unknownOption (name : String)
  | missingValue (name : String)
  | unexpectedValue (name : String)
  | repeated (name : String)
  | conflict (name other : String)
  | invalidNumber (name value : String)
  | missingCommand
  | unknownCommand (name : String)
  | missingFile
  | unexpectedArgument (name : String)
deriving DecidableEq, Repr

/-- The wording of a usage error. -/
def UsageError.message : UsageError → String
  | .unknownOption name => "unexpected option " ++ name
  | .missingValue name => "option " ++ name ++ " needs a value"
  | .unexpectedValue name => "option " ++ name ++ " takes no value"
  | .repeated name => "option " ++ name ++ " cannot be given more than once"
  | .conflict name other => "option " ++ name ++ " cannot be given with " ++ other
  | .invalidNumber name value => "option " ++ name ++ " needs a number, got " ++ value
  | .missingCommand => "a command is needed: check, lower or run"
  | .unknownCommand name => "unknown command " ++ name
  | .missingFile => "a file is needed"
  | .unexpectedArgument name => "unexpected argument " ++ name

/-! ## Splitting -/

/-- The parts of a command line. -/
structure Parts where
  names : List String := []
  flags : List String := []
  values : List (String × String) := []

namespace Parts

/-- The options that take a value. -/
def valued : List String := ["--config", "--color", "--arg", "--step-limit"]

/-- The options that take none. -/
def plain : List String :=
  ["--verbose", "-v", "--graph", "--linear", "--unoptimized", "--interpret"]

/-- Adds a name in front. -/
def withName (p : Parts) (name : String) : Parts := { p with names := name :: p.names }

/-- Adds a flag in front. -/
def withFlag (p : Parts) (name : String) : Parts := { p with flags := name :: p.flags }

/-- Adds an option with its value in front. -/
def withValue (p : Parts) (name value : String) : Parts :=
  { p with values := (name, value) :: p.values }

/-- An option and the value joined to it. -/
def joined (arg : String) : String × Option String :=
  match arg.toList.span (· != '=') with
  | (name, '=' :: value) => (String.ofList name, some (String.ofList value))
  | _ => (arg, none)

/-- Whether an argument is an option. -/
def isOption (arg : String) : Bool := arg.startsWith "-" && arg != "-"

/-- Splits a command line into its parts. -/
def split : List String → Except UsageError Parts
  | [] => .ok {}
  | "--" :: names => .ok { names }
  | arg :: rest =>
    if !isOption arg then (split rest).map (·.withName arg)
    else
      let (name, value) := joined arg
      if plain.contains name then
        match value with
        | some _ => .error (.unexpectedValue name)
        | none => (split rest).map (·.withFlag name)
      else if valued.contains name then
        match value, rest with
        | some v, rest => (split rest).map (·.withValue name v)
        | none, v :: rest =>
          if isOption v then .error (.missingValue name)
          else (split rest).map (·.withValue name v)
        | none, [] => .error (.missingValue name)
      else .error (.unknownOption name)

/-- Whether a flag is given. -/
def has (p : Parts) (name : String) : Bool := p.flags.contains name

/-- The value of an option. -/
def value? (p : Parts) (name : String) : Option String := p.values.lookup name

/-- All options in use. -/
def options (p : Parts) : List String := p.flags ++ p.values.map Prod.fst

/-- The first name that occurs again later. -/
def repeated? : List String → Option String
  | [] => none
  | name :: rest => if rest.contains name then some name else repeated? rest

/-- Checks that only some options are in use, and none twice but for arguments of a lambda. -/
def checkOptions (p : Parts) (own : List String) : Except UsageError Unit := do
  let allowed := "--config" :: "--color" :: "--verbose" :: "-v" :: own
  match p.options.find? fun name => !allowed.contains name with
  | some name => throw (.unknownOption name)
  | none => pure ()
  match repeated? (p.options.filter (· != "--arg")) with
  | some name => throw (.repeated name)
  | none => pure ()

/-- The one file that a command takes. -/
def oneFile : List String → Except UsageError String
  | [] => .error .missingFile
  | [file] => .ok file
  | _ :: name :: _ => .error (.unexpectedArgument name)

/-- A natural number of 64 bits. -/
def number? (s : String) : Option Nat :=
  let digits := match s.toList with
    | '+' :: cs => cs
    | cs => cs
  if digits.isEmpty || !digits.all Char.isDigit then none
  else
    let n := digits.foldl (fun n c => n * 10 + (c.toNat - '0'.toNat)) 0
    if n < UInt64.size then some n else none

/-- The step limit, if one is given. -/
def stepLimit (p : Parts) : Except UsageError (Option Nat) :=
  match p.value? "--step-limit" with
  | none => .ok none
  | some s =>
    match number? s with
    | some n => .ok (some n)
    | none => .error (.invalidNumber "--step-limit" s)

/-- The command that the parts make up. -/
def command (p : Parts) : Except UsageError Command := do
  match p.names with
  | [] => throw .missingCommand
  | "check" :: files =>
    p.checkOptions []
    if files.isEmpty then throw .missingFile
    return .check files
  | "lower" :: files =>
    p.checkOptions ["--graph", "--linear", "--unoptimized"]
    if p.has "--graph" && p.has "--linear" then throw (.conflict "--graph" "--linear")
    return .lower (← oneFile files) (p.has "--graph") (p.has "--linear") (p.has "--unoptimized")
  | "run" :: files =>
    p.checkOptions ["--interpret", "--arg", "--unoptimized", "--step-limit"]
    let args := (p.values.filter (·.1 == "--arg")).map Prod.snd
    return .run (← oneFile files) (p.has "--interpret") args (p.has "--unoptimized")
      (← p.stepLimit)
  | name :: _ => throw (.unknownCommand name)

end Parts

/-- Reads a command line. -/
def Invocation.parse (args : List String) : Except UsageError Invocation := do
  let p ← Parts.split args
  let command ← p.command
  let color := (p.value? "--color").elim .auto .ofName
  return { config := p.value? "--config", color, command }

end Coroutine.Cli
