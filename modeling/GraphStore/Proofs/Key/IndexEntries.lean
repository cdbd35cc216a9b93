import GraphStore.Key.IndexEntries
import GraphStore.Proofs.Row.Given

/-!
# Index entries of given and of stored rows

An index key depends on how its columns encode the properties. A given value and the value that a
column of the same type stores for it are encoded alike, so the entries put with a row are those
that the stored row has when it is read back.
-/

namespace GraphStore

namespace IndexLayout

/-- Two values that an index column does not tell apart. -/
def EncodedAlike (column : Column) (a b : Value) : Prop :=
  encodeValue column a = encodeValue column b ∧ a.isNull = b.isNull

/-- A given value is encoded like the one that a column of the same type stores for it. -/
theorem encodedAlike_check {column indexColumn : Column} (hty : column.ty = indexColumn.ty)
    {given value : Value} (hcheck : Row.check column given = .ok value) :
    EncodedAlike indexColumn given value := by
  rcases Row.check_eq_ok hcheck with rfl | ⟨hdouble, i, rfl, rfl⟩
  · exact ⟨rfl, rfl⟩
  · rw [hty] at hdouble
    unfold EncodedAlike encodeValue
    rw [hdouble]
    exact ⟨rfl, rfl⟩

/-- Columns encode values alike that none of them tells apart. -/
theorem encodeColumns_congr {columns : List Column} {f g : Column → Value}
    (h : ∀ column ∈ columns, EncodedAlike column (f column) (g column)) (i : Nat) :
    encodeColumns i columns (columns.map f) = encodeColumns i columns (columns.map g) := by
  induction columns generalizing i with
  | nil => rfl
  | cons column columns ih =>
    obtain ⟨hencoded, hnull⟩ := h column List.mem_cons_self
    rw [List.map_cons, List.map_cons, encodeColumns, encodeColumns, hencoded, hnull,
      ih fun other hother => h other (List.mem_cons_of_mem _ hother)]

end IndexLayout

namespace Index

open IndexLayout

/-- Properties that no column of an index tells apart have the same entry. -/
theorem entryKey_congr {index : Index} {props others : Props}
    (h : ∀ column ∈ index.columns, EncodedAlike column ((props.get? column.name).getD .null)
      ((others.get? column.name).getD .null)) (vidLen : Nat) (part : PartId) (entity : Entity) :
    index.entryKey vidLen part entity props = index.entryKey vidLen part entity others := by
  simp only [entryKey, encodeKey, valuesOf, List.length_map, encodeColumns_congr h]

/-- Properties that no index over `owner` tells apart have the same entries. -/
theorem entryKeys_congr {owner : SchemaRef} {indexes : List Index} {props others : Props}
    (h : ∀ index ∈ indexes, index.owner = owner → ∀ column ∈ index.columns,
      EncodedAlike column ((props.get? column.name).getD .null)
        ((others.get? column.name).getD .null))
    (vidLen : Nat) (part : PartId) (entity : Entity) :
    entryKeys vidLen part owner entity props indexes =
      entryKeys vidLen part owner entity others indexes := by
  apply mapM_congr
  intro index hindex
  obtain ⟨hmem, howner⟩ := List.mem_filter.1 hindex
  exact entryKey_congr (h index hmem (of_decide_eq_true howner)) vidLen part entity

/-- A stored row has the entries of the values that were given for it. -/
theorem entryKeys_ofGiven {schema : Schema} (hnodup : schema.names.Nodup) {names : List String}
    {values : List Value} {row : Row} (hrow : Row.ofGiven schema names values = .ok row)
    {owner : SchemaRef} {indexes : List Index}
    (htypes : ∀ index ∈ indexes, index.owner = owner → ∀ indexColumn ∈ index.columns,
      ∀ column ∈ schema.columns, column.name = indexColumn.name → column.ty = indexColumn.ty)
    (vidLen : Nat) (part : PartId) (entity : Entity) :
    entryKeys vidLen part owner entity (Props.ofGiven schema names values) indexes =
      entryKeys vidLen part owner entity (Props.ofRow schema row) indexes := by
  have hmade := Row.madeFrom_ofGiven hnodup hrow
  apply entryKeys_congr
  intro index hindex howner indexColumn hindexColumn
  have hfilled : (Props.ofGiven schema names values).get? indexColumn.name =
      ((Row.given schema names values).get? indexColumn.name).or
        ((schema.columns.find? (·.name = indexColumn.name)).map (·.default.getD .null)) :=
    Props.get?_foldl_fill schema.columns (Row.given schema names values) indexColumn.name
  rw [hfilled]
  by_cases hknown : indexColumn.name ∈ schema.names
  · obtain ⟨i, hi⟩ := List.mem_iff_getElem?.1 hknown
    rw [List.getElem?_map] at hi
    obtain ⟨column, hcolumn, hname⟩ := Option.map_eq_some_iff.1 hi
    obtain ⟨value, hvalue, hstores⟩ := hmade.stores i column hcolumn
    have hty := htypes index hindex howner indexColumn hindexColumn column
      (List.mem_of_getElem? hcolumn) hname
    have hfind := hname ▸ Schema.find?_name hnodup hcolumn
    rw [← hname, Props.get?_ofRow hnodup row hcolumn, hvalue, Option.getD_some, hname, hfind]
    rw [hname] at hstores
    cases hgiven : (Row.given schema names values).get? indexColumn.name with
    | some given =>
      rw [hgiven] at hstores
      exact encodedAlike_check hty hstores
    | none =>
      rw [hgiven] at hstores
      have hdefault : column.default.getD .null = value := by
        rcases Row.complete_none_eq_ok.1 hstores with hdefault | ⟨hdefault, -, rfl⟩
        · rw [hdefault]
          rfl
        · rw [hdefault]
          rfl
      simp [hdefault, EncodedAlike]
  · have hgiven : (Row.given schema names values).get? indexColumn.name = none := by
      cases hgiven : (Row.given schema names values).get? indexColumn.name with
      | none => rfl
      | some given => exact absurd (hmade.known _ (by rw [hgiven]; rfl)) hknown
    have hfind : schema.columns.find? (·.name = indexColumn.name) = none := by
      apply List.find?_eq_none.2
      intro column hcolumn hname
      exact hknown (List.mem_map.2 ⟨column, hcolumn, of_decide_eq_true hname⟩)
    rw [hgiven, hfind, Props.get?_ofRow_of_notMem hknown]
    exact ⟨rfl, rfl⟩

/-- What is stored for given values has the entries of the values as they were given: it reads back
as a row, and in every partition the keys of an entity, or the failure to make them, are the same for
both. -/
theorem entryKeys_of_encode {schema : Schema} (hnodup : schema.names.Nodup)
    (hdefaults : ∀ column ∈ schema.columns, ∀ value, column.default = some value →
      value.isFinite = true) {names : List String} {values : List Value}
    (hfinite : Row.Finite values) {raw : Bytes} (hraw : Row.encode schema names values = .ok raw)
    {owner : SchemaRef} {indexes : List Index}
    (htypes : ∀ index ∈ indexes, index.owner = owner → ∀ indexColumn ∈ index.columns,
      ∀ column ∈ schema.columns, column.name = indexColumn.name → column.ty = indexColumn.ty) :
    ∃ row, Row.decode schema raw = .ok row ∧ ∀ vidLen part entity,
      entryKeys vidLen part owner entity (Props.ofGiven schema names values) indexes =
        entryKeys vidLen part owner entity (Props.ofRow schema row) indexes := by
  obtain ⟨row, hrow, hdecode⟩ := Row.decode_of_encode hnodup hdefaults hfinite hraw
  exact ⟨row, hdecode, entryKeys_ofGiven hnodup hrow htypes⟩

/-- The entries of a row that is given out of order, with a column named twice and an integer for a
double, are those of the row that is stored for it. -/
theorem entryKeys_of_encode_renamed :
    let schema : Schema := { columns := [
      { name := "name", ty := .string, default := some (.str "nobody") },
      { name := "score", ty := .double, default := some (.float (Double.ofInt 2)) },
      { name := "level", ty := .int8, nullable := true }] }
    let names := ["level", "score", "score"]
    let values : List Value := [.null, .int 3, .int 5]
    let raw := Row.toBytes [.str "nobody", .float (Double.ofInt 5), .null]
    let indexes : List Index := [
      { id := 5, name := "by_score", owner := .tag 3, columns := [
        { name := "score", ty := .double }, { name := "level", ty := .int8, nullable := true }] },
      { id := 6, name := "by_name", owner := .tag 3, columns := [{ name := "name", ty := .string }] }]
    Row.encode schema names values = .ok raw ∧
      ∃ row, Row.decode schema raw = .ok row ∧ ∀ vidLen part entity,
        entryKeys vidLen part (.tag 3) entity (Props.ofGiven schema names values) indexes =
          entryKeys vidLen part (.tag 3) entity (Props.ofRow schema row) indexes := by
  intro schema names values raw indexes
  have hraw : Row.encode schema names values = .ok raw := by rfl
  have hdefaults : ∀ column ∈ schema.columns, ∀ value, column.default = some value →
      value.isFinite = true := by
    simp only [schema, List.forall_mem_cons]
    refine ⟨?_, ?_, ?_, nofun⟩
    · rintro value ⟨⟩
      rfl
    · rintro value ⟨⟩
      exact Double.isFinite_ofInt (by decide)
    · nofun
  refine ⟨hraw, entryKeys_of_encode (by decide) hdefaults ?_ hraw ?_⟩
  · unfold Row.Finite
    decide
  · decide

end Index

end GraphStore
