import GraphStore.Schema.Basic

/-!
# Properties by name

A row seen as a map from property names to values. The last value given for a name is the one
that counts.
-/

namespace GraphStore

/-- Properties by name, each name once. -/
abbrev Props := List (String × Value)

namespace Props

/-- The value of a property. -/
def get? (props : Props) (name : String) : Option Value := props.lookup name

/-- Gives a property a value, in the place of its old one if there was one. -/
def set (name : String) (value : Value) : Props → Props
  | [] => [(name, value)]
  | (other, old) :: rest =>
    if other = name then (name, value) :: rest else (other, old) :: set name value rest

/-- Only the property that was set changes. -/
theorem get?_set (props : Props) (name other : String) (value : Value) :
    (props.set name value).get? other = if other = name then some value else props.get? other := by
  induction props with
  | nil =>
    simp only [set, get?, List.lookup_cons, List.lookup_nil]
    split <;> simp_all
  | cons head rest ih =>
    obtain ⟨first, old⟩ := head
    simp only [set, get?] at *
    by_cases h : first = name
    · subst h
      simp only [↓reduceIte, List.lookup_cons]
      by_cases ho : other = first
      · simp [ho]
      · have hb : (other == first) = false := by simp [ho]
        rw [hb, if_neg ho]
    · simp only [h, ↓reduceIte, List.lookup_cons]
      by_cases ho : other = first
      · subst ho; simp [h]
      · have hb : (other == first) = false := by simp [ho]
        rw [hb]; exact ih

/-- Sets properties one after another. -/
def ofPairs (pairs : List (String × Value)) : Props :=
  pairs.foldl (fun props (name, value) => props.set name value) []

/-- The properties of a stored row. -/
def ofRow (schema : Schema) (row : Row) : Props :=
  ofPairs ((schema.columns.map (·.name)).zip row)

/-- The value of a column that was not given: its default, or else null. -/
def fill (props : Props) (column : Column) : Props :=
  if (props.get? column.name).isSome then props
  else props.set column.name (column.default.getD .null)

/-- The properties given for a new row, with every other column filled. No names stand for the
columns in order. -/
def ofGiven (schema : Schema) (names : List String) (values : List Value) : Props :=
  let names := if names.isEmpty then schema.columns.map (·.name) else names
  schema.columns.foldl fill (ofPairs (names.zip values))

end Props

end GraphStore
