import Coroutine.Value.Basic

/-!
# Operators

The operators of the expression language and their meaning on values. Operands that do not fit
are a fault of the program, thrown into it, and never a failure of the machine. Integer arithmetic
is exact or a fault; everything else on numbers is double arithmetic. In particular two integers
are ordered by their doubles.
-/

namespace Coroutine

/-- A binary operator. -/
inductive BinaryOp where
  | add | subtract | multiply | divide | modulo
  | equal | notEqual | lessThan | lessThanOrEqual | greaterThan | greaterThanOrEqual
  | and | or
  | andAlso | orElse
deriving DecidableEq, Repr

/-- A unary operator. -/
inductive UnaryOp where
  | not | negate
deriving DecidableEq, Repr

namespace BinaryOp

/-- Whether the right operand is only evaluated on demand. -/
def shortCircuits : BinaryOp → Bool
  | .andAlso | .orElse => true
  | _ => false

/-- The symbol of an operator. -/
def symbol : BinaryOp → String
  | .add => "+"
  | .subtract => "-"
  | .multiply => "*"
  | .divide => "/"
  | .modulo => "%"
  | .equal => "=="
  | .notEqual => "!="
  | .lessThan => "<"
  | .lessThanOrEqual => "<="
  | .greaterThan => ">"
  | .greaterThanOrEqual => ">="
  | .and => "&"
  | .or => "|"
  | .andAlso => "&&"
  | .orElse => "||"

/-- The name of an operator in documents. -/
def name : BinaryOp → String
  | .add => "add"
  | .subtract => "subtract"
  | .multiply => "multiply"
  | .divide => "divide"
  | .modulo => "modulo"
  | .equal => "equal"
  | .notEqual => "not_equal"
  | .lessThan => "less_than"
  | .lessThanOrEqual => "less_than_or_equal"
  | .greaterThan => "greater_than"
  | .greaterThanOrEqual => "greater_than_or_equal"
  | .and => "and"
  | .or => "or"
  | .andAlso => "and_also"
  | .orElse => "or_else"

/-- Every operator. -/
def all : List BinaryOp :=
  [.add, .subtract, .multiply, .divide, .modulo, .equal, .notEqual, .lessThan, .lessThanOrEqual,
   .greaterThan, .greaterThanOrEqual, .and, .or, .andAlso, .orElse]

end BinaryOp

namespace UnaryOp

/-- The symbol of an operator. -/
def symbol : UnaryOp → String
  | .not => "!"
  | .negate => "-"

/-- The name of an operator in documents. -/
def name : UnaryOp → String
  | .not => "not"
  | .negate => "negate"

/-- Every operator. -/
def all : List UnaryOp := [.not, .negate]

end UnaryOp

namespace Value

/-- A fault of arithmetic. -/
def arithmeticFault (message : String) : Fault := ⟨"ArithmeticError", message⟩

/-- An exact result as a 64-bit integer, or the fault of an overflow. -/
def checked (i : Int) : Except Fault Value :=
  if Int64.minValue.toInt ≤ i ∧ i ≤ Int64.maxValue.toInt then .ok (.int (Int64.ofInt i))
  else .error (arithmeticFault "integer overflow")

/-- Arithmetic on integers; division and remainder truncate towards zero. The remainder by `-1`
of the least integer overflows like the quotient. -/
def intArithmetic (op : BinaryOp) (a b : Int64) : Except Fault Value :=
  match op with
  | .add => checked (a.toInt + b.toInt)
  | .subtract => checked (a.toInt - b.toInt)
  | .multiply => checked (a.toInt * b.toInt)
  | .divide =>
    if b = 0 then .error (arithmeticFault "division by zero")
    else checked (a.toInt.tdiv b.toInt)
  | .modulo =>
    if b = 0 then .error (arithmeticFault "division by zero")
    else do
      let _ ← checked (a.toInt.tdiv b.toInt)
      checked (a.toInt.tmod b.toInt)
  | _ => .error (arithmeticFault "integer overflow")

/-- Arithmetic on doubles. -/
def floatArithmetic (op : BinaryOp) (a b : Float) : Value :=
  .float <| match op with
    | .add => a + b
    | .subtract => a - b
    | .multiply => a * b
    | .divide => a / b
    | _ => floatRemainder a b

/-- The fault of operands that an operator does not take. -/
def mismatch (op : BinaryOp) (a b : Value) : Fault :=
  .typeError ("operator `" ++ op.symbol ++ "` cannot be applied to " ++ a.typeName ++ " and "
    ++ b.typeName)

/-- Arithmetic: exact on two integers, in doubles if one operand is a double. -/
def arithmetic (op : BinaryOp) (a b : Value) : Except Fault Value :=
  match a, b with
  | .int i, .int j => intArithmetic op i j
  | a, b =>
    match a.float?, b.float? with
    | some x, some y => .ok (floatArithmetic op x y)
    | _, _ => .error (mismatch op a b)

/-- The order of two doubles; NaN has none. -/
def compareFloats (x y : Float) : Option Ordering :=
  if x < y then some .lt else if y < x then some .gt else if x == y then some .eq else none

/-- The order of two values: strings by code point, false before true, numbers as doubles. -/
def order? (a b : Value) : Option Ordering :=
  match a, b with
  | .str s, .str t => some (compare s t)
  | .bool p, .bool q => some (compare p q)
  | a, b =>
    match a.float?, b.float? with
    | some x, some y => compareFloats x y
    | _, _ => none

/-- What a comparison operator asks of the order of its operands. -/
def admits (op : BinaryOp) (o : Ordering) : Bool :=
  match op with
  | .lessThan => o == .lt
  | .lessThanOrEqual => o != .gt
  | .greaterThan => o == .gt
  | _ => o != .lt

/-- Applies a binary operator to evaluated operands. -/
def binary (op : BinaryOp) (a b : Value) : Except Fault Value :=
  match op with
  | .add =>
    match a, b with
    | .str s, b => .ok (.str (s ++ b.text))
    | a, .str t => .ok (.str (a.text ++ t))
    | a, b => arithmetic op a b
  | .subtract | .multiply | .divide | .modulo => arithmetic op a b
  | .equal => .ok (.bool (a.same b))
  | .notEqual => .ok (.bool (!a.same b))
  | .lessThan | .lessThanOrEqual | .greaterThan | .greaterThanOrEqual =>
    match order? a b with
    | some o => .ok (.bool (admits op o))
    | none => .error (mismatch op a b)
  | .and =>
    match a, b with
    | .int i, .int j => .ok (.int (i &&& j))
    | a, b => .ok (.bool (a.truthy && b.truthy))
  | .or =>
    match a, b with
    | .int i, .int j => .ok (.int (i ||| j))
    | a, b => .ok (.bool (a.truthy || b.truthy))
  | .andAlso => .ok (.bool (a.truthy && b.truthy))
  | .orElse => .ok (.bool (a.truthy || b.truthy))

/-- Applies a unary operator. -/
def unary (op : UnaryOp) (a : Value) : Except Fault Value :=
  match op with
  | .not => .ok (.bool (!a.truthy))
  | .negate =>
    match a with
    | .int i => checked (-i.toInt)
    | .float x => .ok (.float (-x))
    | a => .error (.typeError ("operator `-` cannot be applied to " ++ a.typeName))

end Value

end Coroutine
