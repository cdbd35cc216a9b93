import GraphStore.Filter.Expr
import GraphStore.Schema.Text
import GraphStore.Json.Reader
import GraphStore.Json.Writer

/-!
# JSON form of expressions

An expression is an object whose member `kind` names the kind of node and whose other members
are its fields; it may also be an array of the kind and the fields. Encoded expressions are the
bytes of this text.

The members of a node are read before its kind is known, so everything inside it is a buffered
reading: all of it has to be readable, members that no node knows included, and there a kind may
also be given by its number.
-/

namespace GraphStore

/-- The name of a comparison. -/
def RelOp.name : RelOp → String
  | .eq => "eq"
  | .ne => "ne"
  | .lt => "lt"
  | .le => "le"
  | .gt => "gt"
  | .ge => "ge"

/-- The comparison of this name. -/
def RelOp.ofName? (name : String) : Option RelOp :=
  [eq, ne, lt, le, gt, ge].find? (·.name == name)

/-- The name of an arithmetic operation. -/
def ArithOp.name : ArithOp → String
  | .add => "add"
  | .sub => "sub"
  | .mul => "mul"
  | .div => "div"
  | .mod => "mod"

/-- The arithmetic operation of this name. -/
def ArithOp.ofName? (name : String) : Option ArithOp :=
  [add, sub, mul, div, mod].find? (·.name == name)

/-- The name of a logical operation. -/
def LogicOp.name : LogicOp → String
  | .and => "and"
  | .or => "or"

/-- The logical operation of this name. -/
def LogicOp.ofName? (name : String) : Option LogicOp :=
  [and, or].find? (·.name == name)

namespace Expr

/-- The names of the kinds of node, in order of their numbers. -/
def kinds : List String :=
  ["constant", "property", "relational", "arithmetic", "logical", "not"]

mutual

/-- The JSON form of an expression. -/
def toJson : Expr → Json
  | constant value => .obj [("kind", .str "constant"), ("value", value.toJson)]
  | property name => .obj [("kind", .str "property"), ("name", .str name)]
  | relational op left right =>
    .obj [("kind", .str "relational"), ("op", .str op.name), ("left", toJson left),
      ("right", toJson right)]
  | arithmetic op left right =>
    .obj [("kind", .str "arithmetic"), ("op", .str op.name), ("left", toJson left),
      ("right", toJson right)]
  | logical op operands =>
    .obj [("kind", .str "logical"), ("op", .str op.name), ("operands", .arr (toJsons operands))]
  | negation operand => .obj [("kind", .str "not"), ("operand", toJson operand)]

/-- The JSON forms of a list of expressions. -/
def toJsons : List Expr → List Json
  | [] => []
  | e :: es => toJson e :: toJsons es

end

/-- The name of a kind. Inside another expression its number does as well. -/
def kindName? (inner : Bool) : Json → Option String
  | .str name => some name
  | .int i => if inner ∧ 0 ≤ i then kinds[i.toNat]? else none
  | _ => none

/-- The kind of a node, and the rest of it as a record. -/
def untag? (inner : Bool) : Json → Option (String × Json)
  | .obj members =>
    match members.filter (·.1 == "kind") with
    | [(_, kind)] => (kindName? inner kind).map fun name =>
        (name, .obj (members.filter (·.1 != "kind")))
    | _ => none
  | .arr (kind :: items) => (kindName? inner kind).map fun name => (name, .arr items)
  | _ => none

/-- Reads the fields of a comparison or an arithmetic operation. -/
def binary? (ofName? : String → Option α) (read : Json → Option Expr) (j : Json) :
    Option (α × Expr × Expr) :=
  match Json.fields ["op", "left", "right"] j with
  | some [op, left, right] => do
    let op ← op.required (Json.unitVariant? true ofName?)
    let left ← left.required read
    let right ← right.required read
    some (op, left, right)
  | _ => none

/-- Reads an expression that nests at most `depth` nodes deep. -/
def ofJson? (inner : Bool) : (depth : Nat) → Json → Option Expr
  | 0, _ => none
  | depth + 1, j =>
    match untag? inner j with
    | some ("constant", rest) =>
      match Json.fields ["value"] rest with
      | some [value] => (value.required (Value.ofJson? true)).map constant
      | _ => none
    | some ("property", rest) =>
      match Json.fields ["name"] rest with
      | some [name] => (name.required Json.string?).map property
      | _ => none
    | some ("relational", rest) =>
      (binary? RelOp.ofName? (ofJson? true depth) rest).map fun (op, left, right) =>
        relational op left right
    | some ("arithmetic", rest) =>
      (binary? ArithOp.ofName? (ofJson? true depth) rest).map fun (op, left, right) =>
        arithmetic op left right
    | some ("logical", rest) =>
      match Json.fields ["op", "operands"] rest with
      | some [op, operands] => do
        let op ← op.required (Json.unitVariant? true LogicOp.ofName?)
        let operands ← operands.required (Json.list? (ofJson? true depth))
        some (logical op operands)
      | _ => none
    | some ("not", rest) =>
      match Json.fields ["operand"] rest with
      | some [operand] => (operand.required (ofJson? true depth)).map negation
      | _ => none
    | _ => none

/-- Reads an expression out of a document. No document nests deeper than this reading. -/
def read? (j : Json) : Option Expr :=
  if j.isReadable then ofJson? false (Json.maxDepth + 1) j else none

/-- The encoded form of an expression. -/
def encode (e : Expr) : Bytes := e.toJson.toBytes

/-- The expression encoded by a byte string. -/
def decode? (bytes : Bytes) : Option Expr := (Json.ofBytes? bytes).bind read?

end Expr

end GraphStore
