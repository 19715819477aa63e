import Coroutine.Binder
import Coroutine.Tree.Text

/-!
# Transitions

How control leaves a state of a state graph. A transition names the states that it can lead to by
their numbers: `references` lists them in order and `mapReferences` replaces them.
-/

namespace Coroutine

/-- A number with at least four digits. -/
def paddedNumber (n : Nat) : String :=
  let digits := toString n
  String.ofList (List.replicate (4 - digits.length) '0') ++ digits

/-- The text of a state. -/
def stateText (id : Nat) : String := "ST_" ++ paddedNumber id

/-- An arm of a switch. -/
structure SwitchArm where
  tests : List Expr
  body : Nat

/-- A handler of a protected region, and the code that selecting it records. -/
structure HandlerEntry where
  filter : Filter
  body : Nat
  code : Int
deriving DecidableEq, Repr

/-- The entry into a protected region. -/
structure RegionEntry where
  region : Nat
  body : Nat
  /-- Records how the region was left. -/
  tryState : Var
  /-- Holds the caught exception. -/
  exception : Var
  handlers : List HandlerEntry
  cleanup : Option Nat
  /-- The state after the construct. -/
  join : Nat
deriving DecidableEq, Repr

/-- The end of a cleanup, where control goes on as the region was left. -/
structure CleanupExit where
  region : Nat
  tryState : Var
  exception : Var
  join : Nat
deriving DecidableEq, Repr

/-- The suspension on an awaiter that has not completed. -/
structure AwaitEntry where
  awaitable : Expr
  awaiter : Var
  binder : Binder
  configure : Bool
  /-- The state that retrieves the result, where a suspended machine resumes. -/
  completion : Nat

/-- The retrieval of an awaiter's result. -/
structure AwaitResult where
  awaiter : Var
  result : Option Var
  binder : Binder
  target : Nat
deriving DecidableEq, Repr

/-- How control leaves a state. -/
inductive Transition where
  | goto (target : Nat)
  | conditional (test : Expr) (ifTrue ifFalse : Nat)
  /-- Without a match control goes to the fallback. -/
  | switch (value : Expr) (arms : List SwitchArm) (fallback : Nat)
  /-- The head of a loop, which stays a state of its own. -/
  | loop (body : Nat)
  | tryCatch (entry : RegionEntry)
  | cleanupExit (exit : CleanupExit)
  | await (entry : AwaitEntry)
  | awaitResult (r : AwaitResult)
  | yieldReturn (value : Expr) (resume : Nat)
  | yieldBreak
  | finish (value : Option Expr)

namespace Transition

/-- The states that a transition names, in order. -/
def references : Transition → List Nat
  | .goto target => [target]
  | .conditional _ ifTrue ifFalse => [ifTrue, ifFalse]
  | .switch _ arms fallback => arms.map SwitchArm.body ++ [fallback]
  | .loop body => [body]
  | .tryCatch t => t.body :: (t.handlers.map HandlerEntry.body ++ t.cleanup.toList ++ [t.join])
  | .cleanupExit e => [e.join]
  | .await a => [a.completion]
  | .awaitResult a => [a.target]
  | .yieldReturn _ resume => [resume]
  | .yieldBreak | .finish _ => []

/-- Replaces the states that a transition names. -/
def mapReferences (f : Nat → Nat) : Transition → Transition
  | .goto target => .goto (f target)
  | .conditional test ifTrue ifFalse => .conditional test (f ifTrue) (f ifFalse)
  | .switch value arms fallback =>
    .switch value (arms.map fun a => { a with body := f a.body }) (f fallback)
  | .loop body => .loop (f body)
  | .tryCatch t =>
    .tryCatch { t with
      body := f t.body
      handlers := t.handlers.map fun h => { h with body := f h.body }
      cleanup := t.cleanup.map f
      join := f t.join }
  | .cleanupExit e => .cleanupExit { e with join := f e.join }
  | .await a => .await { a with completion := f a.completion }
  | .awaitResult a => .awaitResult { a with target := f a.target }
  | .yieldReturn value resume => .yieldReturn value (f resume)
  | .yieldBreak => .yieldBreak
  | .finish value => .finish value

/-- The state reached without a jump when it is emitted next. -/
def fallthrough? : Transition → Option Nat
  | .goto target => some target
  | .loop body => some body
  | .conditional _ _ ifFalse => some ifFalse
  | .awaitResult a => some a.target
  | .tryCatch t => t.cleanup
  | _ => none

/-- The state where a suspended machine resumes. -/
def resumeTarget? : Transition → Option Nat
  | .await a => some a.completion
  | .yieldReturn _ resume => some resume
  | _ => none

/-- The state best emitted next. -/
def layoutHint? (t : Transition) : Option Nat := t.fallthrough? <|> t.resumeTarget?

/-- A short name for the kind of a transition. -/
def kindName : Transition → String
  | .goto _ => "goto"
  | .conditional .. => "conditional"
  | .switch .. => "switch"
  | .loop _ => "loop"
  | .tryCatch _ => "try"
  | .cleanupExit _ => "finally-exit"
  | .await _ => "await"
  | .awaitResult _ => "await-result"
  | .yieldReturn .. => "yield"
  | .yieldBreak => "yield-break"
  | .finish _ => "final"

/-- A transition on one line. -/
def text : Transition → String
  | .goto target => "goto " ++ stateText target
  | .conditional test ifTrue ifFalse =>
    "if (" ++ test.text ++ ") " ++ stateText ifTrue ++ " else " ++ stateText ifFalse
  | .switch value arms fallback =>
    let arm (a : SwitchArm) : String :=
      " | ".intercalate (a.tests.map Expr.text) ++ " => " ++ stateText a.body
    "switch (" ++ value.text ++ ") \x7b " ++ "; ".intercalate (arms.map arm) ++ "; default => "
      ++ stateText fallback ++ " \x7d"
  | .loop body => "loop " ++ stateText body
  | .tryCatch t =>
    let handler (h : HandlerEntry) : String :=
      " catch(" ++ h.filter.text ++ ") #" ++ toString h.code ++ " " ++ stateText h.body
    let cleanup := match t.cleanup with
      | some c => " finally " ++ stateText c
      | none => ""
    "try " ++ stateText t.body ++ String.join (t.handlers.map handler) ++ cleanup ++ " join "
      ++ stateText t.join
  | .cleanupExit e => "end finally (" ++ e.tryState.name ++ ") join " ++ stateText e.join
  | .await a =>
    "await<" ++ a.binder.typeName ++ "> " ++ a.awaitable.text ++ " -> " ++ a.awaiter.name
      ++ " resume " ++ stateText a.completion
  | .awaitResult a =>
    let target := match a.result with
      | some r => r.name ++ " = "
      | none => ""
    target ++ "result(" ++ a.awaiter.name ++ "); goto " ++ stateText a.target
  | .yieldReturn value resume => "yield return " ++ value.text ++ " resume " ++ stateText resume
  | .yieldBreak => "yield break"
  | .finish none => "return"
  | .finish (some value) => "return " ++ value.text

end Transition

end Coroutine
