import Coroutine.Value.Operator

/-!
# Expression trees

Structured programs as data: operators and calls, blocks, conditionals, switches and loops, labels
and the jumps to them, protected bodies with handlers, and the three suspend points `await`,
`yield return` and `yield break`.

Variables and labels are identified by their number; their names only serve messages. Variables are
kept under 32-bit words. The numbers of trees that are read are words, but those of temporaries that
are made for a tree may go beyond, and then their words begin with zero again.
-/

namespace Coroutine

/-- The 32-bit word of a number. -/
def word (n : Nat) : Nat := n % UInt32.size

theorem word_of_lt {n : Nat} (h : n < UInt32.size) : word n = n := Nat.mod_eq_of_lt h

/-- A variable. Its number tells it from the others of a graph; when it runs, only the word of the
number is left. -/
structure Var where
  id : Nat
  name : String
deriving DecidableEq, Repr, Inhabited

/-- The word under which a variable is kept. -/
def Var.word (x : Var) : Nat := Coroutine.word x.id

/-- The variables of a list without those that share their word with one before. -/
def Var.apart (xs : List Var) : List Var :=
  xs.foldl (fun kept x => if kept.any (·.word == x.word) then kept else kept ++ [x]) []

/-- A jump target. -/
structure Label where
  id : Nat
  name : Option String
deriving DecidableEq, Repr, Inhabited

/-- The text of a label known only by its number. -/
def labelText (id : Nat) : String := "L" ++ toString id

/-- The text of a label: its name if it has one. -/
def Label.text (l : Label) : String := l.name.getD (labelText l.id)

/-- What a jump is meant for. All kinds jump alike. -/
inductive JumpKind where
  | toLabel | toBreak | toContinue | toReturn
deriving DecidableEq, Repr

/-- The word for a jump. -/
def JumpKind.name : JumpKind → String
  | .toLabel => "goto"
  | .toBreak => "break"
  | .toContinue => "continue"
  | .toReturn => "return"

/-- How a lambda runs. -/
inductive LambdaKind where
  /-- A plain function, which never suspends. -/
  | sync
  /-- May contain `await`, and completes with a value. -/
  | async
  /-- May contain `yield return` and `yield break`, and produces a sequence. -/
  | generator
deriving DecidableEq, Repr, Inhabited

/-- The word for a kind of lambda. -/
def LambdaKind.name : LambdaKind → String
  | .sync => "sync"
  | .async => "async"
  | .generator => "generator"

/-- Which exceptions a handler accepts. -/
inductive Filter where
  | any
  | kind (k : String)
deriving DecidableEq, Repr

/-- Whether a handler accepts a fault. -/
def Filter.accepts (f : Filter) (x : Fault) : Bool :=
  match f with
  | .any => true
  | .kind k => x.kind == k

/-- The text of a filter. -/
def Filter.text : Filter → String
  | .any => "*"
  | .kind k => k

mutual

/-- An expression. -/
inductive Expr where
  | constant (value : Value)
  | var (x : Var)
  /-- Assigns, with the assigned value as its own. -/
  | assign (target : Var) (value : Expr)
  | binary (op : BinaryOp) (left right : Expr)
  | unary (op : UnaryOp) (operand : Expr)
  /-- Calls a function of the host by name. -/
  | call (function : String) (args : List Expr)
  /-- Calls a closure. -/
  | invoke (target : Expr) (args : List Expr)
  /-- A nested lambda, evaluated to a closure over the enclosing scopes. -/
  | lambda (l : Lambda)
  /-- Statements with variables of their own; the last one gives the value. -/
  | block (vars : List Var) (body : List Expr)
  | condition (test ifTrue : Expr) (ifFalse : Option Expr)
  | switch (value : Expr) (cases : List SwitchCase) (fallback : Option Expr)
  /-- Repeats its body until a jump leaves it. -/
  | loop (body : Expr) (breakLabel continueLabel : Option Label)
  | goto (kind : JumpKind) (target : Label) (value : Option Expr)
  /-- Defines a label. Its value is the one a jump delivers, or the fallback when it is reached by
  falling through. -/
  | label (target : Label) (fallback : Option Expr)
  /-- A protected body. The cleanup runs however the body or the handler that caught its exception
  is left. -/
  | tryCatch (body : Expr) (handlers : List Handler) (cleanup : Option Expr)
  /-- Throws; without an operand, throws again what is being handled. -/
  | throw (value : Option Expr)
  /-- Waits for an awaitable of the named type. -/
  | await (awaitable : Expr) (awaitableType : String) (configure : Bool)
  | yieldReturn (value : Expr)
  | yieldBreak

/-- One arm of a switch. -/
structure SwitchCase where
  tests : List Expr
  body : Expr

/-- A catch handler. -/
structure Handler where
  filter : Filter
  var : Option Var
  body : Expr

/-- A lambda. -/
structure Lambda where
  name : Option String
  kind : LambdaKind
  params : List Var
  body : Expr

end

instance : Inhabited Expr := ⟨.constant .unit⟩

/-- The name a lambda goes by. -/
def Lambda.displayName (l : Lambda) : String := l.name.getD "<lambda>"

namespace Expr

/-- The unit constant. -/
def unit : Expr := .constant .unit

/-- A short name for the kind of an expression. -/
def kindName : Expr → String
  | .constant _ => "constant"
  | .var _ => "variable"
  | .assign .. => "assign"
  | .binary .. => "binary"
  | .unary .. => "unary"
  | .call .. => "call"
  | .invoke .. => "invoke"
  | .lambda _ => "lambda"
  | .block .. => "block"
  | .condition .. => "condition"
  | .switch .. => "switch"
  | .loop .. => "loop"
  | .goto .. => "goto"
  | .label .. => "label"
  | .tryCatch .. => "try"
  | .throw _ => "throw"
  | .await .. => "await"
  | .yieldReturn _ => "yield return"
  | .yieldBreak => "yield break"

/-- Whether evaluating an expression does nothing but give a value. -/
def isPureLeaf : Expr → Bool
  | .constant _ | .var _ => true
  | _ => false

/-- Whether an expression always jumps or throws. -/
def isJump : Expr → Bool
  | .goto .. | .throw _ => true
  | _ => false

/-- Whether an expression is itself a suspend point. -/
def isSuspendPoint : Expr → Bool
  | .await .. | .yieldReturn _ | .yieldBreak => true
  | _ => false

end Expr

end Coroutine
