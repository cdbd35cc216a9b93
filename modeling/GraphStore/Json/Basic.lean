import GraphStore.Number.Double

/-!
# JSON values

A number is an integer when it is written without fraction and exponent and lies between the
least signed and the greatest unsigned 64-bit integer; every other number is a double. An object
is the list of its members as written, repeated names included: a record that forbids repetition
can then say so. A well-formed value may be beyond these forms, such as a number too great for a
double; it is then unreadable, and does harm only where something is read from it.
-/

namespace GraphStore

/-- A JSON value. -/
inductive Json where
  | null
  | bool (b : Bool)
  | int (i : Int)
  | float (d : Double)
  | str (s : String)
  | arr (items : List Json)
  | obj (members : List (String × Json))
  /-- A well-formed value that stands for none of the others. -/
  | unreadable
  deriving Repr, Inhabited

namespace Json

/-- The least integer that a number literal stands for. -/
def minInt : Int := -0x8000000000000000

/-- The greatest integer that a number literal stands for. -/
def maxInt : Int := 0xffffffffffffffff

/-- The first member with this name. -/
def member? (name : String) : Json → Option Json
  | obj members => members.lookup name
  | _ => none

mutual

/-- Whether everything in a value can be read. -/
def isReadable : Json → Bool
  | unreadable => false
  | arr items => areReadable items
  | obj members => membersReadable members
  | _ => true

/-- Whether everything in the items of an array can be read. -/
def areReadable : List Json → Bool
  | [] => true
  | item :: items => isReadable item && areReadable items

/-- Whether everything in the members of an object can be read. -/
def membersReadable : List (String × Json) → Bool
  | [] => true
  | (_, value) :: members => isReadable value && membersReadable members

end

/-- An array of strings. -/
def strs (names : List String) : Json := arr (names.map str)

/-- The value, or null when there is none. -/
def orNull : Option Json → Json
  | some j => j
  | none => null

end Json

end GraphStore
