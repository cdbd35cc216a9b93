import GraphStore.Json.Basic
import GraphStore.Number.Rounding

/-!
# Records and variants in JSON

A record is an object with its fields in any order, or an array of its fields in declared order.
In an object unknown members are passed over and a field may not be repeated; in an array the
last fields may be cut off. A variant is its name alone, or an object whose single member is
named after it and holds its payload.
-/

namespace GraphStore.Json

/-- What a record says about one of its fields. -/
inductive Field where
  /-- The field has this value. -/
  | given (j : Json)
  /-- The object has no such member. -/
  | missing
  /-- The array ends before this field. -/
  | cut

/-- The field of this name in an object; none when it is repeated. -/
def fieldOf (members : List (String × Json)) (name : String) : Option Field :=
  match members.filter (·.1 == name) with
  | [] => some .missing
  | [(_, j)] => some (.given j)
  | _ => none

/-- Reads the items of an array as fields. An array longer than the record is refused. -/
def fieldsOfItems : (names : List String) → List Json → Option (List Field)
  | [], [] => some []
  | [], _ :: _ => none
  | _ :: names, [] => (fieldsOfItems names []).map (.cut :: ·)
  | _ :: names, j :: items => (fieldsOfItems names items).map (.given j :: ·)

/-- The fields of a record in declared order. -/
def fields (names : List String) : Json → Option (List Field)
  | obj members => names.mapM (fieldOf members)
  | arr items => fieldsOfItems names items
  | _ => none

namespace Field

/-- A field that has to be there. -/
def required (read : Json → Option α) : Field → Option α
  | given j => read j
  | _ => none

/-- A field that may be absent or null in an object, but is not cut off an array. -/
def optional (read : Json → Option α) : Field → Option (Option α)
  | given null => some none
  | given j => (read j).map some
  | missing => some none
  | cut => none

/-- A field that has a value of its own when it is not given. -/
def withDefault (default : α) (read : Json → Option α) : Field → Option α
  | given j => read j
  | _ => some default

end Field

/-- A value or null. -/
def nullable (read : Json → Option α) : Json → Option (Option α)
  | null => some none
  | j => (read j).map some

/-- A name alone, or the single member of an object. -/
def variant? : Json → Option (String × Option Json)
  | str name => some (name, none)
  | obj [(name, payload)] => some (name, some payload)
  | _ => none

/-- Whether this is the payload of a variant that has none: absent or null, and in a buffered
reading the empty object too. -/
def isUnit (buffered : Bool) : Option Json → Bool
  | none => true
  | some null => true
  | some (obj []) => buffered
  | some _ => false

/-- A truth value. -/
def bool? : Json → Option Bool
  | bool b => some b
  | _ => none

/-- A string. -/
def string? : Json → Option String
  | str s => some s
  | _ => none

/-- An integer literal within bounds. -/
def intWithin? (low high : Int) : Json → Option Int
  | int i => if low ≤ i ∧ i ≤ high then some i else none
  | _ => none

/-- A 32-bit signed integer. -/
def int32? (j : Json) : Option Int32 :=
  (intWithin? (-0x80000000) 0x7fffffff j).map Int32.ofInt

/-- A 64-bit signed integer. -/
def int64? (j : Json) : Option Int64 :=
  (intWithin? (-0x8000000000000000) 0x7fffffffffffffff j).map Int64.ofInt

/-- A natural number below `2 ^ width`. -/
def nat? (width : Nat) (j : Json) : Option Nat :=
  (intWithin? 0 (Nat.pow 2 width - 1) j).map Int.toNat

/-- A byte. -/
def byte? (j : Json) : Option UInt8 :=
  (nat? 8 j).map UInt8.ofNat

/-- Any number, to the nearest double. -/
def double? : Json → Option Double
  | float d => some d
  | int i => some (Double.ofInt i)
  | _ => none

/-- A list of values. -/
def list? (read : Json → Option α) : Json → Option (List α)
  | arr items => items.mapM read
  | _ => none

end GraphStore.Json
