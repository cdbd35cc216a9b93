import GraphStore.Proofs.Outcome
import GraphStore.Proofs.Row.Written
import Mathlib.Data.List.Nodup

/-!
# Rows made from given values

A request gives some properties of a row, by name or in column order. The row that is stored has in
each column the given value as its column stores it, or else the column's default or null; no
property outside the columns is ever given.
-/

namespace GraphStore

/-- The names of the columns. -/
abbrev Schema.names (schema : Schema) : List String := schema.columns.map (·.name)

/-- A column that is found by name has that name. -/
theorem Schema.field?_eq_some {schema : Schema} {name : String} {i : Nat} {column : Column}
    (h : schema.field? name = some (i, column)) :
    schema.columns[i]? = some column ∧ column.name = name := by
  unfold Schema.field? at h
  cases hfound : schema.columns.findIdx? (·.name == name) with
  | none =>
    rw [hfound] at h
    cases h
  | some j =>
    rw [hfound] at h
    obtain ⟨found, hget, hpair⟩ := Option.map_eq_some_iff.1 h
    obtain ⟨rfl, rfl⟩ := Prod.mk.inj hpair
    obtain ⟨hlt, hname, -⟩ := List.findIdx?_eq_some_iff_getElem.1 hfound
    obtain ⟨hlt', hget⟩ := List.getElem?_eq_some_iff.1 hget
    refine ⟨List.getElem?_eq_some_iff.2 ⟨hlt', hget⟩, ?_⟩
    rw [← hget]
    exact eq_of_beq hname

/-- A column is found under the names of the columns alone. -/
theorem Schema.isSome_field? {schema : Schema} {name : String} :
    (schema.field? name).isSome = true ↔ name ∈ schema.names := by
  unfold Schema.field?
  cases hfound : schema.columns.findIdx? (·.name == name) with
  | none =>
    have hnone := List.findIdx?_eq_none_iff.1 hfound
    simpa [Schema.names] using hnone
  | some i =>
    obtain ⟨hlt, hname, -⟩ := List.findIdx?_eq_some_iff_getElem.1 hfound
    have hmem : name ∈ schema.names :=
      List.mem_map.2 ⟨_, List.getElem_mem hlt, eq_of_beq hname⟩
    simpa [hlt] using hmem

/-- With distinct names a name stands for one place. -/
theorem Schema.place_inj {schema : Schema} (hnodup : schema.names.Nodup) {i j : Nat}
    {column other : Column} (hi : schema.columns[i]? = some column)
    (hj : schema.columns[j]? = some other) (hname : column.name = other.name) : i = j := by
  have hget (k : Nat) (c : Column) (hk : schema.columns[k]? = some c) :
      schema.names[k]? = some c.name := by
    rw [List.getElem?_map, hk]
    rfl
  obtain ⟨hlt, -⟩ := List.getElem?_eq_some_iff.1 (hget i column hi)
  exact (List.getElem?_inj hlt hnodup).1 (by rw [hget i column hi, hget j other hj, hname])

/-- With distinct names a column is found under its name. -/
theorem Schema.find?_name {schema : Schema} (hnodup : schema.names.Nodup) {i : Nat}
    {column : Column} (hcolumn : schema.columns[i]? = some column) :
    schema.columns.find? (·.name = column.name) = some column := by
  cases hfind : schema.columns.find? (·.name = column.name) with
  | none =>
    have hnone := List.find?_eq_none.1 hfind column (List.mem_of_getElem? hcolumn)
    simp at hnone
  | some other =>
    have hname : other.name = column.name := by simpa using List.find?_some hfind
    obtain ⟨j, hj⟩ := List.mem_iff_getElem?.1 (List.mem_of_find?_eq_some hfind)
    obtain rfl := Schema.place_inj hnodup hcolumn hj hname.symm
    rw [← hj, hcolumn]

namespace Props

/-- Properties that are set one after another have the last value under each name. -/
theorem get?_foldl_set (pairs : List (String × Value)) (props : Props) (name : String) :
    (pairs.foldl (fun props (name, value) => props.set name value) props).get? name =
      (pairs.reverse.lookup name).or (props.get? name) := by
  induction pairs generalizing props with
  | nil => rfl
  | cons pair pairs ih =>
    obtain ⟨first, value⟩ := pair
    rw [List.foldl_cons, ih, get?_set, List.reverse_cons, List.lookup_append, Option.or_assoc]
    congr 1
    by_cases hname : name = first
    · simp [hname]
    · have hother : (name == first) = false := by simpa using hname
      simp [List.lookup_cons, hname, hother]

/-- Properties that are not set keep their values. -/
theorem get?_foldl_set_of_notMem {pairs : List (String × Value)} {name : String}
    (h : name ∉ pairs.map (·.1)) (props : Props) :
    (pairs.foldl (fun props (name, value) => props.set name value) props).get? name =
      props.get? name := by
  have hnone : pairs.reverse.lookup name = none := by
    refine List.lookup_eq_none_iff.2 fun pair hpair => ?_
    have hmem : pair.1 ∈ pairs.map (·.1) := List.mem_map_of_mem (List.mem_reverse.1 hpair)
    simpa using fun heq : name = pair.1 => h (heq ▸ hmem)
  rw [get?_foldl_set, hnone, Option.none_or]

/-- The names of pairs come from the names that were paired. -/
theorem mem_of_mem_zip {names : List String} {values : List Value} {name : String}
    (h : name ∈ (names.zip values).map (·.1)) : name ∈ names := by
  obtain ⟨⟨first, value⟩, hmem, rfl⟩ := List.mem_map.1 h
  exact (List.of_mem_zip hmem).1

/-- Pairs are their names with their values. -/
theorem zip_pairs (pairs : List (String × Value)) :
    (pairs.map (·.1)).zip (pairs.map (·.2)) = pairs := by
  rw [List.zip_map', List.map_id']

/-- Values set under distinct names are found in the places of their names. -/
theorem get?_foldl_set_zip {names : List String} (hnodup : names.Nodup) {values : List Value}
    {i : Nat} {name : String} (hname : names[i]? = some name) (props : Props) :
    ((names.zip values).foldl (fun props (name, value) => props.set name value) props).get? name =
      values[i]?.or (props.get? name) := by
  induction names generalizing values i props with
  | nil => cases hname
  | cons first names ih =>
    obtain ⟨hfirst, hnodup⟩ := List.nodup_cons.1 hnodup
    cases values with
    | nil => rfl
    | cons value values =>
      rw [List.zip_cons_cons, List.foldl_cons]
      cases i with
      | zero =>
        obtain rfl : first = name := Option.some.inj hname
        rw [get?_foldl_set_of_notMem fun h => hfirst (mem_of_mem_zip h), get?_set, if_pos rfl]
        rfl
      | succ i =>
        have hother : name ≠ first := by
          rintro rfl
          exact hfirst (List.mem_of_getElem? hname)
        rw [ih hnodup hname, get?_set, if_neg hother]
        rfl

/-- A property that is found was set. -/
theorem mem_of_get?_foldl_set {pairs : List (String × Value)} {props : Props} {name : String}
    {value : Value}
    (h : (pairs.foldl (fun props (name, value) => props.set name value) props).get? name =
      some value) : (name, value) ∈ pairs ∨ props.get? name = some value := by
  rw [get?_foldl_set] at h
  rcases Option.or_eq_some_iff.1 h with hlast | ⟨-, hset⟩
  · obtain ⟨later, earlier, hpairs, -⟩ := List.lookup_eq_some_iff.1 hlast
    have hmem : (name, value) ∈ pairs.reverse :=
      hpairs ▸ List.mem_append_right later List.mem_cons_self
    exact .inl (List.mem_reverse.1 hmem)
  · exact .inr hset

/-- A property that is set is found, whatever is set later. -/
theorem exists_get?_foldl_set {pairs : List (String × Value)} {props : Props} {name : String}
    (h : name ∈ pairs.map (·.1) ∨ ∃ value, props.get? name = some value) :
    ∃ value, (pairs.foldl (fun props (name, value) => props.set name value) props).get? name =
      some value := by
  simp only [get?_foldl_set, ← Option.isSome_iff_exists] at h ⊢
  rw [Option.isSome_or, Bool.or_eq_true]
  refine h.imp_left fun hmem => List.lookup_isSome_iff.2 ?_
  obtain ⟨pair, hpair, rfl⟩ := List.mem_map.1 hmem
  exact ⟨pair, List.mem_reverse.2 hpair, beq_self_eq_true _⟩

/-- A row that is as long as its schema has a property for each column. -/
theorem exists_get?_ofRow {schema : Schema} {row : Row}
    (hlength : row.length = schema.columns.length) {name : String} (h : name ∈ schema.names) :
    ∃ value, (ofRow schema row).get? name = some value := by
  apply exists_get?_foldl_set
  rw [List.map_fst_zip (by rw [List.length_map, hlength])]
  exact .inl h

/-- The property of a column of a stored row. -/
theorem get?_ofRow {schema : Schema} (hnodup : schema.names.Nodup) (row : Row) {i : Nat}
    {column : Column} (hcolumn : schema.columns[i]? = some column) :
    (ofRow schema row).get? column.name = row[i]? := by
  have hname : schema.names[i]? = some column.name := by
    rw [List.getElem?_map, hcolumn]
    rfl
  rw [ofRow, ofPairs, get?_foldl_set_zip hnodup hname]
  exact Option.or_none

/-- A stored row has no properties but those of its columns. -/
theorem get?_ofRow_of_notMem {schema : Schema} {name : String} (h : name ∉ schema.names)
    (row : Row) : (ofRow schema row).get? name = none :=
  get?_foldl_set_of_notMem (fun hmem => h (mem_of_mem_zip hmem)) []

/-- Filling gives only columns a value, and only those that have none. -/
theorem get?_foldl_fill (columns : List Column) (props : Props) (name : String) :
    (columns.foldl fill props).get? name =
      (props.get? name).or ((columns.find? (·.name = name)).map (·.default.getD .null)) := by
  induction columns generalizing props with
  | nil => simp
  | cons column columns ih =>
    rw [List.foldl_cons, ih, fill, List.find?_cons]
    by_cases hname : column.name = name
    · subst hname
      cases hgiven : props.get? column.name with
      | none => simp [get?_set]
      | some value => simp [hgiven]
    · have hother : ¬ name = column.name := fun h => hname h.symm
      by_cases hgiven : (props.get? column.name).isSome
      · simp [hgiven, hname]
      · simp [hgiven, hname, get?_set, hother]

end Props

namespace Row

/-- What a column is given, beside what its slot holds: the given value as the column stores it. -/
def Fits (column : Column) : (given slot : Option Value) → Prop
  | none, none => True
  | some given, some value => check column given = .ok value
  | _, _ => False

/-- Slots that hold what the columns are given, where nothing else is given. -/
structure Holds (schema : Schema) (props : Props) (slots : List (Option Value)) : Prop where
  fits : ∀ (i : Nat) (column : Column), schema.columns[i]? = some column →
    ∃ slot : Option Value, slots[i]? = some slot ∧ Fits column (props.get? column.name) slot
  known : ∀ name, (props.get? name).isSome = true → name ∈ schema.names

/-- Empty slots hold what nothing gives. -/
theorem holds_nil (schema : Schema) : Holds schema [] (schema.columns.map fun _ => none) where
  fits i column hcolumn := ⟨none, by rw [List.getElem?_map, hcolumn]; rfl, trivial⟩
  known name h := by cases h

/-- One more named value is held in the slot of its column. -/
theorem Holds.set {schema : Schema} (hnodup : schema.names.Nodup) {props : Props}
    {slots : List (Option Value)} (h : Holds schema props slots) {name : String} {i : Nat}
    {column : Column} (hfield : schema.field? name = some (i, column)) {given value : Value}
    (hcheck : check column given = .ok value) :
    Holds schema (props.set name given) (slots.set i (some value)) := by
  obtain ⟨hcolumn, rfl⟩ := Schema.field?_eq_some hfield
  constructor
  · intro j other hother
    obtain ⟨slot, hslot, hfits⟩ := h.fits j other hother
    by_cases hij : i = j
    · subst hij
      obtain rfl : column = other := Option.some.inj (hcolumn.symm.trans hother)
      have hlt := (List.getElem?_eq_some_iff.1 hslot).1
      refine ⟨some value, by rw [List.getElem?_set_self hlt], ?_⟩
      rw [Props.get?_set, if_pos rfl]
      exact hcheck
    · have hname : other.name ≠ column.name := fun heq =>
        hij (Schema.place_inj hnodup hcolumn hother heq.symm)
      refine ⟨slot, by rw [List.getElem?_set_ne hij, hslot], ?_⟩
      rwa [Props.get?_set, if_neg hname]
  · intro other hother
    rw [Props.get?_set] at hother
    split at hother
    · next heq =>
      rw [heq]
      exact List.mem_map_of_mem (List.mem_of_getElem? hcolumn)
    · exact h.known other hother

/-- Named values are held one after another. -/
theorem holds_fillByName {schema : Schema} (hnodup : schema.names.Nodup)
    {pairs : List (String × Value)} {props : Props} {slots filled : List (Option Value)}
    (h : Holds schema props slots) (hfill : fillByName schema slots pairs = .ok filled) :
    Holds schema (pairs.foldl (fun props (name, value) => props.set name value) props) filled := by
  induction pairs generalizing props slots with
  | nil =>
    cases hfill
    exact h
  | cons pair pairs ih =>
    obtain ⟨name, given⟩ := pair
    rw [fillByName] at hfill
    cases hfield : schema.field? name with
    | none =>
      rw [hfield] at hfill
      cases hfill
    | some found =>
      obtain ⟨i, column⟩ := found
      rw [hfield] at hfill
      obtain ⟨value, hcheck, hfill⟩ := bind_eq_ok.1 hfill
      exact ih (h.set hnodup hfield hcheck) hfill

/-- Values in column order are held in the slots of their places. -/
theorem fillInOrder_fits {columns : List Column} {values : List Value}
    {slots : List (Option Value)} (hfill : fillInOrder columns values = .ok slots) {i : Nat}
    {column : Column} (hcolumn : columns[i]? = some column) :
    ∃ slot, slots[i]? = some slot ∧ Fits column values[i]? slot := by
  induction columns generalizing values slots i with
  | nil => cases hcolumn
  | cons first columns ih =>
    cases values with
    | nil =>
      cases hfill
      refine ⟨none, ?_, trivial⟩
      rw [List.getElem?_map, hcolumn]
      rfl
    | cons given values =>
      obtain ⟨value, hcheck, hfill⟩ := bind_eq_ok.1 hfill
      obtain ⟨rest, hrest, hfill⟩ := bind_eq_ok.1 hfill
      cases hfill
      cases i with
      | zero =>
        obtain rfl : first = column := Option.some.inj hcolumn
        exact ⟨some value, rfl, hcheck⟩
      | succ i => exact ih hrest hcolumn

/-- What a request gives: values by name, or in column order when no names are given. -/
def given (schema : Schema) (names : List String) (values : List Value) : Props :=
  Props.ofPairs ((if names.isEmpty then schema.names else names).zip values)

/-- Pairs of names and values are given as they are, also when there are none. -/
theorem given_pairs (schema : Schema) (pairs : List (String × Value)) :
    given schema (pairs.map (·.1)) (pairs.map (·.2)) = Props.ofPairs pairs := by
  cases pairs with
  | nil => simp [given]
  | cons pair pairs => exact congrArg Props.ofPairs (Props.zip_pairs (pair :: pairs))

/-- The slots hold what is given. -/
theorem holds_slots {schema : Schema} (hnodup : schema.names.Nodup) {names : List String}
    {values : List Value} {filled : List (Option Value)}
    (hslots : slots schema names values = .ok filled) :
    Holds schema (given schema names values) filled := by
  unfold slots at hslots
  by_cases hempty : names.isEmpty = true
  · rw [if_pos hempty] at hslots
    split at hslots
    · cases hslots
    · rw [given, if_pos hempty]
      constructor
      · intro i column hcolumn
        have hname : schema.names[i]? = some column.name := by
          rw [List.getElem?_map, hcolumn]
          rfl
        rw [Props.ofPairs, Props.get?_foldl_set_zip hnodup hname]
        simpa [Props.get?] using fillInOrder_fits hslots hcolumn
      · intro name hname
        obtain ⟨value, hvalue⟩ := Option.isSome_iff_exists.1 hname
        rcases Props.mem_of_get?_foldl_set hvalue with hmem | hnone
        · exact (List.of_mem_zip hmem).1
        · cases hnone
  · rw [if_neg hempty] at hslots
    split at hslots
    · cases hslots
    · rw [given, if_neg hempty]
      exact holds_fillByName hnodup (holds_nil schema) hslots

/-- A column that is not given has its default, or null if it may. -/
theorem complete_none_eq_ok {column : Column} {value : Value} :
    complete column none = .ok value ↔ column.default = some value ∨
      column.default = none ∧ column.nullable = true ∧ value = .null := by
  unfold complete
  cases column.default with
  | some default => simp
  | none => cases column.nullable <;> simp [eq_comm]

/-- What a column has of its own is finite when its default is. -/
theorem isFinite_of_complete {column : Column} {value : Value}
    (hcomplete : complete column none = .ok value)
    (hdefault : ∀ default, column.default = some default → default.isFinite = true) :
    value.isFinite = true := by
  rcases complete_none_eq_ok.1 hcomplete with heq | ⟨-, -, rfl⟩
  · exact hdefault value heq
  · rfl

/-- A value that a column stores: the given one as the column stores it, else the column's own. -/
def Stores (column : Column) (given : Option Value) (value : Value) : Prop :=
  match given with
  | some given => check column given = .ok value
  | none => complete column none = .ok value

/-- A row that is made from given properties, none of them outside the columns. -/
structure MadeFrom (schema : Schema) (props : Props) (row : Row) : Prop where
  length_eq : row.length = schema.columns.length
  stores : ∀ (i : Nat) (column : Column), schema.columns[i]? = some column →
    ∃ value, row[i]? = some value ∧ Stores column (props.get? column.name) value
  known : ∀ name, (props.get? name).isSome = true → name ∈ schema.names

/-- What a row is made from counts by its values alone. -/
theorem madeFrom_congr {schema : Schema} {props others : Props} {row : Row}
    (h : props.get? = others.get?) : MadeFrom schema props row ↔ MadeFrom schema others row := by
  constructor
  · rintro ⟨hlength, hstores, hknown⟩
    rw [h] at hstores hknown
    exact ⟨hlength, hstores, hknown⟩
  · rintro ⟨hlength, hstores, hknown⟩
    rw [← h] at hstores hknown
    exact ⟨hlength, hstores, hknown⟩

/-- A completed row has a value for each column. -/
theorem completeAll_stores {columns : List Column} {slots : List (Option Value)} {row : Row}
    (hrow : completeAll columns slots = .ok row) {i : Nat} {column : Column} {slot : Option Value}
    (hcolumn : columns[i]? = some column) (hslot : slots[i]? = some slot) :
    ∃ value, row[i]? = some value ∧ complete column slot = .ok value := by
  induction columns generalizing slots row i with
  | nil => cases hcolumn
  | cons first columns ih =>
    cases slots with
    | nil => cases hslot
    | cons firstSlot slots =>
      obtain ⟨value, hfirst, hrow⟩ := bind_eq_ok.1 hrow
      obtain ⟨rest, hrest, hrow⟩ := bind_eq_ok.1 hrow
      cases hrow
      cases i with
      | zero =>
        obtain rfl : first = column := Option.some.inj hcolumn
        obtain rfl : firstSlot = slot := Option.some.inj hslot
        exact ⟨value, rfl, hfirst⟩
      | succ i => exact ih hrest hcolumn hslot

/-- A row that is completed from a slot for each column has a value for each. -/
theorem length_completeAll {columns : List Column} {slots : List (Option Value)} {row : Row}
    (hrow : completeAll columns slots = .ok row) :
    row.length = min columns.length slots.length := by
  induction columns generalizing slots row with
  | nil =>
    cases hrow
    simp
  | cons column columns ih =>
    cases slots with
    | nil =>
      cases hrow
      rfl
    | cons slot slots =>
      obtain ⟨value, -, hrow⟩ := bind_eq_ok.1 hrow
      obtain ⟨rest, hrest, hrow⟩ := bind_eq_ok.1 hrow
      cases hrow
      simp [ih hrest]

/-- The row of a request is made from what the request gives. -/
theorem madeFrom_ofGiven {schema : Schema} (hnodup : schema.names.Nodup) {names : List String}
    {values : List Value} {row : Row} (hrow : ofGiven schema names values = .ok row) :
    MadeFrom schema (given schema names values) row := by
  obtain ⟨filled, hslots, hrow⟩ := bind_eq_ok.1 hrow
  have hholds := holds_slots hnodup hslots
  have hvalue (i : Nat) (column : Column) (hcolumn : schema.columns[i]? = some column) :
      ∃ value, row[i]? = some value ∧
        Stores column ((given schema names values).get? column.name) value := by
    obtain ⟨slot, hslot, hfits⟩ := hholds.fits i column hcolumn
    obtain ⟨value, hget, hcomplete⟩ := completeAll_stores hrow hcolumn hslot
    refine ⟨value, hget, ?_⟩
    cases hgiven : (given schema names values).get? column.name with
    | none =>
      rw [hgiven] at hfits
      cases slot with
      | none => exact hcomplete
      | some stored => exact hfits.elim
    | some wanted =>
      rw [hgiven] at hfits
      cases slot with
      | none => exact hfits.elim
      | some stored =>
        cases hcomplete
        exact hfits
  refine ⟨Nat.le_antisymm ((length_completeAll hrow).trans_le (Nat.min_le_left ..)) ?_, hvalue,
    hholds.known⟩
  by_contra hshort
  rw [Nat.not_le] at hshort
  obtain ⟨value, hget, -⟩ := hvalue row.length _ (List.getElem?_eq_getElem hshort)
  rw [List.getElem?_eq_none le_rfl] at hget
  cases hget

/-- A row made from finite properties is finite when the defaults are. -/
theorem MadeFrom.finite {schema : Schema} {props : Props} {row : Row}
    (h : MadeFrom schema props row)
    (hprops : ∀ name value, props.get? name = some value → value.isFinite = true)
    (hdefaults : ∀ column ∈ schema.columns, ∀ value, column.default = some value →
      value.isFinite = true) : Finite row := by
  intro value hvalue
  obtain ⟨i, hlt, hget⟩ := List.mem_iff_getElem.1 hvalue
  have hcolumn : i < schema.columns.length := h.length_eq ▸ hlt
  obtain ⟨stored, hstored, hstores⟩ := h.stores i _ (List.getElem?_eq_getElem hcolumn)
  obtain rfl : value = stored := by
    rw [List.getElem?_eq_getElem hlt, hget] at hstored
    exact Option.some.inj hstored
  unfold Stores at hstores
  split at hstores
  · next wanted hwanted => exact isFinite_of_check (hprops _ _ hwanted) hstores
  · exact isFinite_of_complete hstores (hdefaults _ (List.getElem_mem hcolumn))

/-- A stored row of finite values reads back as the row that the given values make. For doubles this
is the assumption that the reader of numbers takes each of them from its own literal. -/
theorem decode_of_encode {schema : Schema} (hnodup : schema.names.Nodup)
    (hdefaults : ∀ column ∈ schema.columns, ∀ value, column.default = some value →
      value.isFinite = true) {names : List String} {values : List Value} (hfinite : Finite values)
    {raw : Bytes} (h : encode schema names values = .ok raw) :
    ∃ row, ofGiven schema names values = .ok row ∧ decode schema raw = .ok row := by
  obtain ⟨row, hrow, hraw⟩ := bind_eq_ok.1 h
  cases hraw
  have hmade := madeFrom_ofGiven hnodup hrow
  have hgiven : ∀ name value, (given schema names values).get? name = some value →
      value.isFinite = true := by
    intro name value hget
    rcases Props.mem_of_get?_foldl_set hget with hmem | hnone
    · exact hfinite value (List.of_mem_zip hmem).2
    · cases hnone
  exact ⟨row, hrow, decode_toBytes schema (hmade.finite hgiven hdefaults) hmade.length_eq⟩

end Row

end GraphStore
