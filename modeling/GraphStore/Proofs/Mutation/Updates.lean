import GraphStore.Mutation.Update
import GraphStore.Proofs.Mutation.Prepared
import GraphStore.Proofs.Row.Naming

/-!
# What updates make of a row

A row is a value for each name, and so are the defaults of a schema. Updates change one name after
another, each with the earlier ones applied, and the row that is stored has in each column what the
column makes of the value that is left under its name.
-/

namespace GraphStore

/-- The value that a row has under a name. -/
def Row.value? (schema : Schema) (row : Row) (name : String) : Option Value :=
  (schema.names.zip row).lookup name

/-- The default that a schema has under a name. -/
def Schema.default? (schema : Schema) (name : String) : Option Value :=
  (schema.columns.find? (·.name = name)).bind (·.default)

namespace Props

/-- Properties that are set under distinct names are found under their names, all others as
before. -/
theorem get?_foldl_set_of_nodup {pairs : List (String × Value)} (hnodup : (pairs.map (·.1)).Nodup)
    (props : Props) (name : String) :
    (pairs.foldl (fun props (name, value) => props.set name value) props).get? name =
      (pairs.lookup name).or (props.get? name) := by
  induction pairs generalizing props with
  | nil => rfl
  | cons pair pairs ih =>
    obtain ⟨first, value⟩ := pair
    obtain ⟨hfirst, hrest⟩ := List.nodup_cons.1 hnodup
    rw [List.foldl_cons, List.lookup_cons]
    by_cases hname : name = first
    · subst hname
      rw [get?_foldl_set_of_notMem hfirst, get?_set]
      simp
    · have hne : (name == first) = false := by simpa using hname
      rw [ih hrest, get?_set, if_neg hname, hne]

/-- Properties given under distinct names are found under their names. -/
theorem get?_ofPairs {pairs : List (String × Value)} (hnodup : (pairs.map (·.1)).Nodup)
    (name : String) : (ofPairs pairs).get? name = pairs.lookup name := by
  rw [ofPairs, get?_foldl_set_of_nodup hnodup]
  exact Option.or_none

variable {schema : Schema}

/-- With distinct column names the properties of a row are its values by name. -/
theorem get?_ofRow_eq (hnodup : schema.names.Nodup) (row : Row) :
    (ofRow schema row).get? = Row.value? schema row := by
  have hzip : ((schema.names.zip row).map (·.1)).Nodup := by
    rw [List.zip_eq_zip_take_min, List.map_fst_zip (by simp)]
    exact hnodup.sublist (List.take_sublist _ _)
  funext name
  exact get?_ofPairs hzip name

/-- The names of the columns that have a value are among the names of the columns. -/
theorem nodup_filterMap (hnodup : schema.names.Nodup) (f : Column → Option Value) :
    ((schema.columns.filterMap fun column =>
      (f column).map fun value => (column.name, value)).map (·.1)).Nodup := by
  have hnames (columns : List Column) :
      ((columns.filterMap fun column =>
        (f column).map fun value => (column.name, value)).map (·.1)).Sublist
          (columns.map (·.name)) := by
    induction columns with
    | nil => exact .slnil
    | cons column columns ih =>
      rw [List.filterMap_cons, List.map_cons]
      cases f column with
      | none => exact ih.cons _
      | some value => exact ih.cons_cons _
  exact hnodup.sublist (hnames schema.columns)

/-- A column's value is found under its name, if it has one. -/
theorem lookup_filterMap (hnodup : schema.names.Nodup) (f : Column → Option Value)
    (name : String) :
    (schema.columns.filterMap fun column =>
      (f column).map fun value => (column.name, value)).lookup name =
        (schema.columns.find? (·.name = name)).bind f := by
  obtain ⟨columns⟩ := schema
  dsimp only [Schema.names] at hnodup ⊢
  induction columns with
  | nil => rfl
  | cons column columns ih =>
    obtain ⟨hfirst, hrest⟩ := List.nodup_cons.1 hnodup
    rw [List.filterMap_cons, List.find?_cons]
    by_cases hname : column.name = name
    · -- No later column has this name, so nothing is found when this one has no value.
      subst hname
      have hlater : columns.find? (·.name = column.name) = none :=
        List.find?_eq_none.2 fun other hother h =>
          hfirst (List.mem_map.2 ⟨other, hother, of_decide_eq_true h⟩)
      cases hf : f column with
      | none => simpa [hf, hlater] using ih hrest
      | some value => simp [hf]
    · have hother : (name == column.name) = false := by simpa using fun h => hname h.symm
      cases hf : f column with
      | none => simpa [hname] using ih hrest
      | some value => simpa [hname, List.lookup_cons, hother] using ih hrest

end Props

namespace UpdateVertex

variable (req : UpdateVertex)

/-- What an expression sees beside the values of a row: the id of the vertex. -/
def sees (values : String → Option Value) (name : String) : Option Value :=
  if name = vidProperty then some (.str req.vertex) else values name

/-- The values after an update: its expression, as it sees the values before, under its name. -/
def updated (values : String → Option Value) (update : UpdatedProp) (name : String) :
    Option Value :=
  if name = update.name then some (update.value.eval (req.sees values)) else values name

/-- The values after all updates of a request, from left to right. -/
def outcome (values : String → Option Value) : String → Option Value :=
  req.updates.foldl req.updated values

/-- What updates start from: the values of the row that is there, else the defaults. -/
def start (schema : Schema) : Option Row → String → Option Value
  | some row => Row.value? schema row
  | none => schema.default?

variable {req} {schema : Schema}

/-- What expressions are given is what they see. -/
theorem lookup_eq (props : Props) : req.lookup props = req.sees props.get? := rfl

/-- Updated properties are the values after the updates. -/
theorem get?_applyUpdates (props : Props) :
    (req.applyUpdates props).get? = req.outcome props.get? := by
  have hrun (updates : List UpdatedProp) (props : Props) :
      (updates.foldl (fun props update =>
        props.set update.name (update.value.eval (req.lookup props))) props).get? =
          updates.foldl req.updated props.get? := by
    induction updates generalizing props with
    | nil => rfl
    | cons update updates ih =>
      rw [List.foldl_cons, List.foldl_cons, ih]
      congr 1
      funext name
      exact Props.get?_set props update.name name _
  exact hrun req.updates props

/-- With distinct column names the properties of the defaults are the defaults by name. -/
theorem get?_defaults (hnodup : schema.names.Nodup) :
    (defaults schema).get? = schema.default? := by
  funext name
  rw [defaults, Props.get?_ofPairs (Props.nodup_filterMap hnodup (·.default)),
    Props.lookup_filterMap hnodup (·.default), Schema.default?]

/-- The row made of properties has in each column what the column makes of its property. -/
theorem encodeProps_eq_ok (hnodup : schema.names.Nodup) {props : Props} {raw : Bytes} :
    encodeProps schema props = .ok raw ↔
      ∃ row, raw = Row.toBytes row ∧ row.length = schema.columns.length ∧
        ∀ (i : Nat) (column : Column), schema.columns[i]? = some column →
          ∃ value, row[i]? = some value ∧ Row.Stores column (props.get? column.name) value := by
  let pairs : List (String × Value) := schema.columns.filterMap fun column =>
    (props.get? column.name).map fun value => (column.name, value)
  have hdistinct : (pairs.map (·.1)).Nodup :=
    Props.nodup_filterMap hnodup fun column => props.get? column.name
  have hget {i : Nat} {column : Column} (hcolumn : schema.columns[i]? = some column) :
      (Props.ofPairs pairs).get? column.name = props.get? column.name := by
    rw [Props.get?_ofPairs hdistinct,
      Props.lookup_filterMap hnodup fun column => props.get? column.name,
      Schema.find?_name hnodup hcolumn]
    rfl
  have hknown (name : String) (h : ((Props.ofPairs pairs).get? name).isSome = true) :
      name ∈ schema.names := by
    obtain ⟨value, hvalue⟩ := Option.isSome_iff_exists.1 h
    obtain ⟨column, hcolumn, hpair⟩ :=
      List.mem_filterMap.1 ((Props.get?_ofPairs_eq_some hdistinct).1 hvalue)
    obtain ⟨_, _, heq⟩ := Option.map_eq_some_iff.1 hpair
    exact List.mem_map.2 ⟨column, hcolumn, congrArg Prod.fst heq⟩
  have hrow (row : Row) :
      Row.ofGiven schema (pairs.map (·.1)) (pairs.map (·.2)) = .ok row ↔
        row.length = schema.columns.length ∧
          ∀ (i : Nat) (column : Column), schema.columns[i]? = some column →
            ∃ value, row[i]? = some value ∧ Row.Stores column (props.get? column.name) value := by
    rw [Row.ofGiven_pairs_iff hnodup hdistinct]
    constructor
    · rintro ⟨hlength, hstores, -⟩
      exact ⟨hlength, fun i column hcolumn => hget hcolumn ▸ hstores i column hcolumn⟩
    · rintro ⟨hlength, hstores⟩
      exact ⟨hlength, fun i column hcolumn => (hget hcolumn).symm ▸ hstores i column hcolumn, hknown⟩
  rw [encodeProps, encodeRow_eq_ok, Row.encode, bind_eq_ok]
  constructor
  · rintro ⟨row, hmade, hraw⟩
    exact ⟨row, (Except.ok.inj hraw).symm, (hrow row).1 hmade⟩
  · rintro ⟨row, rfl, hmade⟩
    exact ⟨row, (hrow row).2 hmade, rfl⟩

end UpdateVertex

end GraphStore
