import Coroutine.Program.Basic
import Coroutine.Graph.Text

/-!
# The text of a linear program

A listing with one instruction to a line. Labels stand out to the left of the instructions, and the
block of a protected region is indented.
-/

namespace Coroutine

/-- Blanks. -/
def indentation (n : Nat) : String := String.ofList (List.replicate n ' ')

/-- Arms of a switch on one line. -/
def armsText (subject : String) (arms : List String) (fallback : Target) : String :=
  "switch (" ++ subject ++ ") \x7b " ++ "; ".intercalate arms ++ "; default => goto "
    ++ fallback.text ++ " \x7d"

/-- The text of an expression ready to be evaluated. -/
def CompiledExpr.text (e : CompiledExpr) : String := e.source.text

/-- The line of a table entry. -/
def TableRow.text (e : TableRow) : String :=
  toString e.state ++ " => " ++ (if e.nested then "" else "state = -1; ") ++ "goto "
    ++ e.target.text

/-- An instruction on one line; regions have lines of their own. -/
def Instr.text : Instr → String
  | .label target => target.text ++ ":"
  | .eval e => e.text
  | .assign x value => x.name ++ " = " ++ value.text
  | .goto target => "goto " ++ target.text
  | .gotoIf test target => "if (" ++ test.text ++ ") goto " ++ target.text
  | .switch value cases fallback =>
    let arm (c : List CompiledExpr × Target) : String :=
      " | ".intercalate (c.1.map CompiledExpr.text) ++ " => goto " ++ c.2.text
    armsText value.text (cases.map arm) fallback
  | .setState state => "state = " ++ toString state
  | .getAwaiter awaitable awaiter binder _ =>
    awaiter.name ++ " = " ++ binder.typeName ++ ".get_awaiter(" ++ awaitable.text ++ ")"
  | .gotoIfCompleted awaiter _ target =>
    "if (" ++ awaiter.name ++ ".is_completed) goto " ++ target.text
  | .register awaiter _ => "host.on_completed(" ++ awaiter.name ++ ")"
  | .suspend .await => "suspend await"
  | .suspend .yield => "suspend yield"
  | .getResult awaiter _ none => awaiter.name ++ ".get_result()"
  | .getResult awaiter _ (some x) => x.name ++ " = " ++ awaiter.name ++ ".get_result()"
  | .setCurrent value => "current = " ++ value.text ++ "; success = true"
  | .yieldBreak => "state = -2; success = false; return"
  | .finish none => "state = -2; return"
  | .finish (some value) => "state = -2; return " ++ value.text
  | .region r => "try <" ++ stateText r.owner ++ ">"
  | .dispatch tryState exception cases rethrows fallback =>
    let arms := cases.map fun (code, target) => toString code ++ " => goto " ++ target.text
    armsText tryState.name
      (arms ++ if rethrows then ["-1 => throw " ++ exception.name] else []) fallback

/-- What a region does with an exception. -/
def catchText (filter : String) (tryState : Var) (code : Int) (exception : Var) : String :=
  " catch (" ++ filter ++ ") \x7b " ++ tryState.name ++ " = " ++ toString code ++ "; "
    ++ exception.name ++ " = <exception> \x7d"

mutual

/-- The lines of an instruction. -/
def Instr.lines (indent : Nat) : Instr → List String
  | .region ⟨_, block, tryState, exception, handlers, catchAll, exits⟩ =>
    let catches := handlers.map fun (filter, code) => catchText filter.text tryState code exception
    let others := if catchAll then catchText "*" tryState unhandled exception else ""
    let leaving := exits.map fun e =>
      indentation indent ++ "; leave " ++ e.target.text ++ " => " ++ tryState.name ++ " = "
        ++ toString e.code
    [indentation indent ++ "try \x7b"] ++ block.lines (indent + 2)
      ++ [indentation indent ++ "\x7d" ++ String.join catches ++ others] ++ leaving
  | .label target => [indentation (indent - 2) ++ target.text ++ ":"]
  | i@(.eval _) | i@(.assign ..) | i@(.goto _) | i@(.gotoIf ..) | i@(.switch ..)
  | i@(.setState _) | i@(.getAwaiter ..) | i@(.gotoIfCompleted ..) | i@(.register ..)
  | i@(.suspend _) | i@(.getResult ..) | i@(.setCurrent _) | i@.yieldBreak | i@(.finish _)
  | i@(.dispatch ..) => [indentation indent ++ i.text]

/-- The lines of instructions. -/
def Instr.linesOf (indent : Nat) : List Instr → List String
  | [] => []
  | i :: is => i.lines indent ++ Instr.linesOf indent is

/-- The lines of a block. -/
def Block.lines (indent : Nat) : Block → List String
  | ⟨_, table, ⟨instrs⟩⟩ =>
    let tableLines :=
      if table.isEmpty then []
      else
        [indentation indent ++ "switch (state) \x7b"]
          ++ table.map (fun e => indentation (indent + 2) ++ e.text)
          ++ [indentation indent ++ "\x7d"]
    tableLines ++ Instr.linesOf indent instrs

end

/-- The listing of a program. -/
def Program.text (p : Program) : String :=
  let locals := if p.vars.isEmpty then [] else ["  ; locals: " ++ varNames p.vars]
  String.join <| List.map textLine <|
    [p.kind.name ++ " fn " ++ p.name ++ "(" ++ varNames p.params ++ ") \x7b"] ++ locals
      ++ p.entry.lines 2 ++ ["\x7d"]

end Coroutine
