import Coroutine.Tree.Basic
import Coroutine.Text.Quoted

/-!
# The text of a tree

A tree on one line, as listings and messages show it. String constants are quoted; every other
constant shows as its value's text. `Expr.describe` cuts the text for messages.
-/

namespace Coroutine

/-- The names of variables, separated by commas. -/
def varNames (xs : List Var) : String := ", ".intercalate (xs.map Var.name)

/-- The text of a constant. -/
def constantText : Value → String
  | .str s => quoted s
  | v => v.text

namespace Expr

mutual

/-- An expression on one line. -/
def text : Expr → String
  | .constant v => constantText v
  | .var x => x.name
  | .assign x value => x.name ++ " = " ++ value.text
  | .binary op left right => "(" ++ left.text ++ " " ++ op.symbol ++ " " ++ right.text ++ ")"
  | .unary op operand => op.symbol ++ operand.text
  | .call function args => function ++ "(" ++ joined ", " args ++ ")"
  | .invoke target args => "(" ++ target.text ++ ")(" ++ joined ", " args ++ ")"
  | .lambda ⟨_, _, params, body⟩ => "|" ++ varNames params ++ "| " ++ body.text
  | .block vars body =>
    let header := if vars.isEmpty then "" else "var " ++ varNames vars ++ "; "
    "\x7b " ++ header ++ joined "; " body ++ " \x7d"
  | .condition test ifTrue none => "if (" ++ test.text ++ ") " ++ ifTrue.text
  | .condition test ifTrue (some ifFalse) =>
    "if (" ++ test.text ++ ") " ++ ifTrue.text ++ " else " ++ ifFalse.text
  | .switch value cases none => "switch (" ++ value.text ++ ") \x7b " ++ casesText cases ++ "\x7d"
  | .switch value cases (some fallback) =>
    "switch (" ++ value.text ++ ") \x7b " ++ casesText cases ++ "default: " ++ fallback.text
      ++ "; \x7d"
  | .loop body _ _ => "loop " ++ body.text
  | .goto kind target none => kind.name ++ " " ++ target.text
  | .goto kind target (some value) => kind.name ++ " " ++ target.text ++ " " ++ value.text
  | .label target none => target.text ++ ":"
  | .label target (some fallback) => target.text ++ ": " ++ fallback.text
  | .tryCatch body handlers none => "try " ++ body.text ++ handlersText handlers
  | .tryCatch body handlers (some cleanup) =>
    "try " ++ body.text ++ handlersText handlers ++ " finally " ++ cleanup.text
  | .throw none => "rethrow"
  | .throw (some value) => "throw " ++ value.text
  | .await awaitable _ _ => "await " ++ awaitable.text
  | .yieldReturn value => "yield return " ++ value.text
  | .yieldBreak => "yield break"

/-- Expressions with a separator between them. -/
def joined (separator : String) : List Expr → String
  | [] => ""
  | [e] => e.text
  | e :: es => e.text ++ separator ++ joined separator es

/-- The arms of a switch. -/
def casesText : List SwitchCase → String
  | [] => ""
  | ⟨tests, body⟩ :: cs => "case " ++ joined ", " tests ++ ": " ++ body.text ++ "; " ++ casesText cs

/-- The handlers of a try. -/
def handlersText : List Handler → String
  | [] => ""
  | ⟨filter, none, body⟩ :: hs =>
    " catch (" ++ filter.text ++ ") " ++ body.text ++ handlersText hs
  | ⟨filter, some x, body⟩ :: hs =>
    " catch (" ++ filter.text ++ " " ++ x.name ++ ") " ++ body.text ++ handlersText hs

end

/-- The longest text a message shows in full. -/
def describeLimit : Nat := 60

/-- The text of an expression, cut for messages. -/
def describe (e : Expr) : String :=
  let t := e.text
  if t.length ≤ describeLimit then t else String.ofList (t.toList.take describeLimit) ++ "..."

end Expr

end Coroutine
