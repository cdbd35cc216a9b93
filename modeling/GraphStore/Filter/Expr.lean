import GraphStore.Schema.Value

/-!
# Expressions

Filters and updates are expressions over the properties of one row. Logic is three-valued:
comparing with null gives null, a value that is no truth value counts as unknown inside a logical
operator, and only `true` keeps a row. Arithmetic gives null on a null operand, on overflow and on
division by zero.
-/

namespace GraphStore

/-- The property that names the vertex. -/
def vidProperty : String := "_vid"

/-- The property that names the source of an edge. -/
def srcProperty : String := "_src"

/-- The property that names the destination of an edge. -/
def dstProperty : String := "_dst"

/-- The property that holds the ranking of an edge. -/
def rankingProperty : String := "_ranking"

/-- A comparison. -/
inductive RelOp where
  | eq | ne | lt | le | gt | ge
  deriving DecidableEq, Repr, Inhabited

/-- An arithmetic operation. -/
inductive ArithOp where
  | add | sub | mul | div | mod
  deriving DecidableEq, Repr, Inhabited

/-- A logical operation on any number of operands. -/
inductive LogicOp where
  | and | or
  deriving DecidableEq, Repr, Inhabited

/-- An expression. -/
inductive Expr where
  | constant (value : Value)
  | property (name : String)
  | relational (op : RelOp) (left right : Expr)
  | arithmetic (op : ArithOp) (left right : Expr)
  | logical (op : LogicOp) (operands : List Expr)
  | negation (operand : Expr)
  deriving Repr, Inhabited

/-- Whether the comparison holds of two values. Null compares to null. Values that are not
comparable are unequal, and their order is null. -/
def RelOp.apply (op : RelOp) (left right : Value) : Value :=
  if left.isNull || right.isNull then .null
  else
    match op, left.compare? right with
    | .eq, ordering => .bool (ordering = some .eq)
    | .ne, ordering => .bool (ordering ≠ some .eq)
    | _, none => .null
    | .lt, some ordering => .bool ordering.isLT
    | .le, some ordering => .bool ordering.isLE
    | .gt, some ordering => .bool ordering.isGT
    | .ge, some ordering => .bool ordering.isGE

namespace ArithOp

/-- An exact result, or null when it does not fit 64 bits. -/
def fitted (i : Int) : Value :=
  if -0x8000000000000000 ≤ i ∧ i < 0x8000000000000000 then .int (Int64.ofInt i) else .null

/-- The operation on integers. The remainder overflows where its quotient does. -/
def onInts (op : ArithOp) (a b : Int64) : Value :=
  match op with
  | add => fitted (a.toInt + b.toInt)
  | sub => fitted (a.toInt - b.toInt)
  | mul => fitted (a.toInt * b.toInt)
  | div => if b = 0 then .null else fitted (a.toInt.tdiv b.toInt)
  | mod =>
    if b = 0 || (fitted (a.toInt.tdiv b.toInt)).isNull then .null
    else fitted (a.toInt.tmod b.toInt)

/-- The operation on doubles. -/
def onDoubles (op : ArithOp) (a b : Double) : Value :=
  match op with
  | add => .float (a.add b)
  | sub => .float (a.sub b)
  | mul => .float (a.mul b)
  | div => if b.isZero then .null else .float (a.div b)
  | mod => if b.isZero then .null else .float (a.rem b)

/-- The operation on two values. Strings can be added; an integer beside a double becomes its
nearest double. -/
def apply (op : ArithOp) : Value → Value → Value
  | .int a, .int b => op.onInts a b
  | .int a, .float b => op.onDoubles (Double.ofInt a.toInt) b
  | .float a, .int b => op.onDoubles a (Double.ofInt b.toInt)
  | .float a, .float b => op.onDoubles a b
  | .str a, .str b => if op = add then .str (a ++ b) else .null
  | _, _ => .null

end ArithOp

/-- The truth value that decides the operation as soon as one operand has it. -/
def LogicOp.dominant : LogicOp → Bool
  | .and => false
  | .or => true

namespace Expr

mutual

/-- The value of an expression on a row; a property that the row lacks is null. -/
def eval (row : String → Option Value) : Expr → Value
  | constant value => value
  | property name => (row name).getD .null
  | relational op left right => op.apply (eval row left) (eval row right)
  | arithmetic op left right => op.apply (eval row left) (eval row right)
  | logical op operands => evalOperands row op false operands
  | negation operand =>
    match eval row operand with
    | .bool b => .bool !b
    | _ => .null

/-- Evaluates operands up to the first dominant one. `unknown` says whether an earlier operand
was no truth value. -/
def evalOperands (row : String → Option Value) (op : LogicOp) (unknown : Bool) :
    List Expr → Value
  | [] => if unknown then .null else .bool !op.dominant
  | operand :: rest =>
    match eval row operand with
    | .bool b => if b = op.dominant then .bool b else evalOperands row op unknown rest
    | _ => evalOperands row op true rest

end

/-- Whether the row passes this expression as a filter. -/
def holds (filter : Expr) (row : String → Option Value) : Bool :=
  filter.eval row = .bool true

end Expr

end GraphStore
