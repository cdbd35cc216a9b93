import GraphStore.Json.Record
import GraphStore.Number.Arithmetic

/-!
# Property values

The values that vertices, edges and result rows carry, their partial order, and their JSON form:
the name of the variant alone for null, an object with the variant's name for the others.
-/

namespace GraphStore

/-- A property value. -/
inductive Value where
  | null
  | bool (b : Bool)
  | int (i : Int64)
  | float (d : Double)
  | str (s : String)
  deriving DecidableEq, Repr, Inhabited

namespace Value

/-- Whether the value is null. -/
def isNull : Value → Bool
  | null => true
  | _ => false

/-- Order of two values; none when they are not comparable. An integer beside a double is
compared through its nearest double, and null compares with nothing. -/
def compare? : Value → Value → Option Ordering
  | int a, int b => some (compare a b)
  | float a, float b => a.compare? b
  | int a, float b => (Double.ofInt a.toInt).compare? b
  | float a, int b => a.compare? (Double.ofInt b.toInt)
  | str a, str b => some (compare a b)
  | bool a, bool b => some (compare a b)
  | _, _ => none

/-- The JSON form of a value. -/
def toJson : Value → Json
  | null => .str "Null"
  | bool b => .obj [("Bool", .bool b)]
  | int i => .obj [("Int", .int i.toInt)]
  | float d => .obj [("Float", .float d)]
  | str s => .obj [("Str", .str s)]

/-- Reads the JSON form of a value. `buffered` also admits an empty object as the payload of
null. -/
def ofJson? (buffered : Bool) (j : Json) : Option Value :=
  match j.variant? with
  | some ("Null", payload) => if Json.isUnit buffered payload then some null else none
  | some ("Bool", some payload) => payload.bool?.map bool
  | some ("Int", some payload) => payload.int64?.map int
  | some ("Float", some payload) => payload.double?.map float
  | some ("Str", some payload) => payload.string?.map str
  | _ => none

end Value

/-- A result row or the values of a stored row. -/
abbrev Row := List Value

end GraphStore
