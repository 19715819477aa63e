import Coroutine.Code.Basic
import Coroutine.Graph.Transition

/-!
# Linear programs

The form of a lambda that a compiled machine runs: one block of instructions per region, each with a
table that says where to go on for the states a machine can be resumed at. The block of a protected
region stands inside the block around it, in the instruction that runs it.
-/

namespace Coroutine

/-- A place in a linear program to jump to. -/
inductive Target where
  /-- The start of a state. -/
  | state (id : Nat)
  /-- Where the protected region that a state enters is entered again. -/
  | reentry (owner : Nat)
deriving DecidableEq, Repr, Inhabited

/-- The text of a jump target. -/
def Target.text : Target → String
  | .state id => stateText id
  | .reentry owner => "TRY_" ++ paddedNumber owner

/-- An expression ready to be evaluated. -/
structure CompiledExpr where
  source : Expr
  code : Code

/-- An entry of a block's table. -/
structure TableRow where
  state : Int
  target : Target
  /-- The state lies in a region inside the block, whose own table goes on with it. -/
  nested : Bool
deriving DecidableEq, Repr

/-- How a region is left towards a target outside it: the code that it records. -/
structure RegionExit where
  code : Int
  target : Target
deriving DecidableEq, Repr

/-- Why a machine gives control back. -/
inductive SuspendKind where
  | await
  | yield
deriving DecidableEq, Repr

mutual

/-- An instruction. -/
inductive Instr where
  | label (target : Target)
  | eval (e : CompiledExpr)
  | assign (x : Var) (value : CompiledExpr)
  | goto (target : Target)
  | gotoIf (test : CompiledExpr) (target : Target)
  | switch (value : CompiledExpr) (cases : List (List CompiledExpr × Target)) (fallback : Target)
  | setState (state : Int)
  | getAwaiter (awaitable : CompiledExpr) (awaiter : Var) (binder : Binder) (configure : Bool)
  | gotoIfCompleted (awaiter : Var) (binder : Binder) (target : Target)
  /-- Hands the awaiter to the host. -/
  | register (awaiter : Var) (binder : Binder)
  | suspend (kind : SuspendKind)
  | getResult (awaiter : Var) (binder : Binder) (target : Option Var)
  | setCurrent (value : CompiledExpr)
  | yieldBreak
  | finish (value : Option CompiledExpr)
  /-- Runs a protected region. -/
  | region (r : TryRegion)
  /-- Goes on as a region was left. -/
  | dispatch (tryState exception : Var) (cases : List (Int × Target)) (rethrows : Bool)
      (fallback : Target)

/-- The instructions of a region. -/
structure Block where
  region : Nat
  table : List TableRow
  instrs : Array Instr

/-- A protected region. -/
structure TryRegion where
  owner : Nat
  block : Block
  /-- Records how the region was left. -/
  tryState : Var
  /-- Holds the caught exception. -/
  exception : Var
  /-- The filters of the handlers, with the codes that they record. -/
  handlers : List (Filter × Int)
  /-- Whether an exception that no handler accepts is kept for the cleanup. -/
  catchAll : Bool
  exits : List RegionExit

end

instance : Inhabited Instr := ⟨.yieldBreak⟩
instance : Inhabited Block := ⟨⟨0, [], #[]⟩⟩

/-- Where a label of an expression leads, and the variable that takes a jump's value. -/
structure LabelSlot where
  target : Target
  var : Option Var
deriving DecidableEq, Repr

/-- A linear program. -/
structure Program where
  name : String
  kind : LambdaKind
  params : List Var
  vars : List Var
  entry : Block
  labels : List (Nat × LabelSlot)
  /-- The states a machine can be resumed at, in increasing order. -/
  resumePoints : List Int

/-! ## Conventions -/

/-- The state of a machine that has not run, or is running. -/
def startState : Int := -1

/-- The state of a machine that has completed. -/
def doneState : Int := -2

/-- What a region records before it is left. -/
def notLeft : Int := 0

/-- What a region records for an exception that no handler accepts. -/
def unhandled : Int := -1

/-! ## Access -/

/-- Whether an instruction is the label of a target. -/
def Instr.isLabel (target : Target) : Instr → Bool
  | .label t => t == target
  | _ => false

/-- Where the label of a target stands in a block. -/
def Block.position? (b : Block) (target : Target) : Option Nat :=
  b.instrs.findIdx? (·.isLabel target)

/-- The entry of a block's table for a state. -/
def Block.row? (b : Block) (state : Int) : Option TableRow :=
  b.table.find? (·.state == state)

/-- The code that leaving a region towards a target records. -/
def TryRegion.exitCode? (r : TryRegion) (target : Target) : Option Int :=
  (r.exits.find? (·.target == target)).map RegionExit.code

/-- The code that an exception records in a region, if it is caught there. -/
def TryRegion.catchCode? (r : TryRegion) (e : Fault) : Option Int :=
  match r.handlers.find? fun (filter, _) => filter.accepts e with
  | some (_, code) => some code
  | none => if r.catchAll then some unhandled else none

/-- The targets that an instruction may jump to. -/
def Instr.targets : Instr → List Target
  | .goto target | .gotoIf _ target | .gotoIfCompleted _ _ target => [target]
  | .switch _ cases fallback => cases.map Prod.snd ++ [fallback]
  | .dispatch _ _ cases _ fallback => cases.map Prod.snd ++ [fallback]
  | _ => []

/-- The expressions that an instruction evaluates, in order. -/
def Instr.exprs : Instr → List CompiledExpr
  | .eval e | .assign _ e | .gotoIf e _ | .getAwaiter e _ _ _ | .setCurrent e => [e]
  | .switch value cases _ => value :: cases.flatMap Prod.fst
  | .finish value => value.toList
  | _ => []

mutual

/-- The number of instructions, those of inner blocks included. -/
def Instr.count : Instr → Nat
  | .region ⟨_, block, _, _, _, _, _⟩ => 1 + block.count
  | _ => 1

/-- The number of instructions of a list. -/
def Instr.countList : List Instr → Nat
  | [] => 0
  | i :: is => i.count + Instr.countList is

/-- The number of instructions of a block. -/
def Block.count : Block → Nat
  | ⟨_, _, ⟨instrs⟩⟩ => Instr.countList instrs

end

mutual

/-- The block inside an instruction and those inside it. -/
def Instr.blocks : Instr → List Block
  | .region ⟨_, block, _, _, _, _, _⟩ => block.blocks
  | _ => []

/-- The blocks inside instructions. -/
def Instr.blocksList : List Instr → List Block
  | [] => []
  | i :: is => i.blocks ++ Instr.blocksList is

/-- A block, followed by those inside it. -/
def Block.blocks : Block → List Block
  | b@⟨_, _, ⟨instrs⟩⟩ => b :: Instr.blocksList instrs

end

end Coroutine
