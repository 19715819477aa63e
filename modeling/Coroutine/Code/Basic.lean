import Coroutine.Binder

/-!
# Code

The form of an expression that is interpreted: its nodes in one array, each before its children,
with parents, slots and children given by index. Await binders are resolved and every jump knows
its route beforehand: the nearest common ancestor of jump and label, and the slots that lead from
there down to the label. A jump to a label that the expression does not define escapes to whoever
evaluates the code.
-/

namespace Coroutine

/-- What the ancestor does with a jump that has reached it. -/
inductive RouteKind where
  /-- A block goes on after the label. -/
  | toLabel
  /-- A loop ends. -/
  | toBreak
  /-- A loop starts its body again. -/
  | toContinue
deriving DecidableEq, Repr

/-- The route of a jump. -/
inductive Route where
  /-- To the ancestor node, and from there down the slots of the path. -/
  | within (ancestor : Nat) (path : List Nat) (kind : RouteKind)
  /-- Out of the code. -/
  | escape
deriving DecidableEq, Repr

/-- The child slots of an arm of a switch. -/
structure CaseSlots where
  tests : List Nat
  body : Nat
deriving DecidableEq, Repr

/-- A handler of a try, with the child slot of its body. -/
structure HandlerSlots where
  filter : Filter
  var : Option Var
  body : Nat
deriving DecidableEq, Repr

mutual

/-- What a node does with its children. -/
inductive Op where
  | constant (value : Value)
  | var (x : Var)
  | assign (target : Var)
  | binary (op : BinaryOp)
  | unary (op : UnaryOp)
  | call (function : String)
  /-- The first child is the closure. -/
  | invoke
  | lambda (template : Template)
  | block (vars : List Var)
  | condition (hasElse : Bool)
  | switch (cases : List CaseSlots) (fallback : Option Nat)
  | loop
  | goto (label : Nat) (hasValue : Bool) (route : Route)
  | label (label : Nat)
  /-- The first child is the protected body. -/
  | tryCatch (handlers : List HandlerSlots) (cleanup : Option Nat)
  | throw
  | rethrow
  | await (binder : Binder) (configure : Bool)
  | yieldReturn
  | yieldBreak

/-- A node. -/
structure Node where
  parent : Option Nat
  /-- Its place among the children of its parent. -/
  slot : Nat
  children : List Nat
  op : Op

/-- The nodes of an expression, the root first, and the labels its jumps escape to. -/
structure Code where
  nodes : Array Node
  escapes : List Nat

/-- A nested lambda, of which closures are made. -/
structure Template where
  name : String
  params : List Var
  code : Code

end

mutual

/-- Whether two nodes do the same with their children. -/
def Op.same : Op → Op → Bool
  | .constant v, .constant v' => decide (v = v')
  | .var x, .var x' => decide (x = x')
  | .assign x, .assign x' => decide (x = x')
  | .binary op, .binary op' => decide (op = op')
  | .unary op, .unary op' => decide (op = op')
  | .call f, .call f' => decide (f = f')
  | .invoke, .invoke => true
  | .lambda t, .lambda t' => t.same t'
  | .block xs, .block xs' => decide (xs = xs')
  | .condition b, .condition b' => decide (b = b')
  | .switch cs f, .switch cs' f' => decide (cs = cs' ∧ f = f')
  | .loop, .loop => true
  | .goto l b r, .goto l' b' r' => decide (l = l' ∧ b = b' ∧ r = r')
  | .label l, .label l' => decide (l = l')
  | .tryCatch hs c, .tryCatch hs' c' => decide (hs = hs' ∧ c = c')
  | .throw, .throw => true
  | .rethrow, .rethrow => true
  | .await b c, .await b' c' => decide (b = b' ∧ c = c')
  | .yieldReturn, .yieldReturn => true
  | .yieldBreak, .yieldBreak => true
  | _, _ => false
termination_by structural x => x

def Node.same : Node → Node → Bool
  | ⟨p, s, cs, op⟩, ⟨p', s', cs', op'⟩ => decide (p = p' ∧ s = s' ∧ cs = cs') && op.same op'
termination_by structural x => x

def Node.sameAll : List Node → List Node → Bool
  | [], [] => true
  | n :: ns, n' :: ns' => n.same n' && Node.sameAll ns ns'
  | _, _ => false
termination_by structural x => x

/-- Whether two codes are one. Codes are shared, so their contents tell what their addresses would. -/
def Code.same : Code → Code → Bool
  | ⟨⟨nodes⟩, escapes⟩, ⟨⟨nodes'⟩, escapes'⟩ =>
    decide (escapes = escapes') && Node.sameAll nodes nodes'
termination_by structural x => x

def Template.same : Template → Template → Bool
  | ⟨name, params, code⟩, ⟨name', params', code'⟩ =>
    decide (name = name' ∧ params = params') && code.same code'
termination_by structural x => x

end

instance : Inhabited Op := ⟨.constant .unit⟩
instance : Inhabited Node := ⟨⟨none, 0, [], default⟩⟩
instance : Inhabited Code := ⟨⟨#[], []⟩⟩
instance : Inhabited Template := ⟨⟨"", [], default⟩⟩

/-- A short name for what a node does. -/
def Op.name : Op → String
  | .constant _ => "constant"
  | .var _ => "variable"
  | .assign _ => "assign"
  | .binary _ => "binary"
  | .unary _ => "unary"
  | .call _ => "call"
  | .invoke => "invoke"
  | .lambda _ => "lambda"
  | .block _ => "block"
  | .condition _ => "condition"
  | .switch .. => "switch"
  | .loop => "loop"
  | .goto .. => "goto"
  | .label _ => "label"
  | .tryCatch .. => "try"
  | .throw => "throw"
  | .rethrow => "rethrow"
  | .await .. => "await"
  | .yieldReturn => "yield return"
  | .yieldBreak => "yield break"

namespace Code

/-- The root is the first node. -/
def root : Nat := 0

/-- A node by its index. -/
def node (c : Code) (id : Nat) : Node := c.nodes.getD id default

/-- The child of a node in a slot, or the error that there is none. -/
def child (c : Code) (id slot : Nat) : Except BuildError Nat :=
  match (c.node id).children[slot]? with
  | some child => .ok child
  | none => .error (.noChild ((c.node id).op.name ++ " #" ++ toString id) slot)

end Code

end Coroutine
