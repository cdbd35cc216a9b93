import GraphStore.Proofs.Json.Written
import GraphStore.Proofs.Row.RoundTrip

/-!
# What stored values read as

A stored value reads as itself or not at all: the text of a double that is not finite says null,
which is no double. So a stored row that can be read is the row that was stored.
-/

namespace GraphStore

namespace Value

/-- The text of a value stands for numbers that have a literal. -/
theorem isExact_written_toJson (v : Value) : v.toJson.written.isExact = true := by
  by_cases hfinite : v.isFinite = true
  · have hexact := isExact_toJson hfinite
    cases v with
    | float d =>
      have hd : d.isFinite = true := hfinite
      simpa [toJson, Json.written, Json.writtenMembers, hd] using hexact
    | _ => exact hexact
  · cases v with
    | float d =>
      have hd : d.isFinite = false := by simpa [isFinite] using hfinite
      simp [toJson, Json.written, Json.writtenMembers, Json.isExact, Json.membersExact, hd]
    | _ => exact absurd rfl hfinite

/-- What the text of a value stands for is read as the value if that is finite, else as none. -/
theorem ofJson?_written_toJson (buffered : Bool) (v : Value) :
    ofJson? buffered v.toJson.written = if v.isFinite then some v else none := by
  cases v with
  | float d =>
    by_cases hfinite : d.isFinite = true <;>
      simp [toJson, Json.written, Json.writtenMembers, ofJson?, Json.variant?, Json.double?,
        isFinite, hfinite]
  | null => exact ofJson?_toJson buffered .null
  | bool b => exact ofJson?_toJson buffered (.bool b)
  | int i => exact ofJson?_toJson buffered (.int i)
  | str s => exact ofJson?_toJson buffered (.str s)

end Value

namespace Row

/-- The values that the text of a row stands for are read as the row if all are finite. -/
theorem mapM_written (row : Row) :
    (Json.writtenItems (row.map Value.toJson)).mapM (Value.ofJson? false) =
      if row.all Value.isFinite then some row else none := by
  induction row with
  | nil => rfl
  | cons v row ih =>
    rw [List.map_cons, Json.writtenItems, List.mapM_cons, v.ofJson?_written_toJson, ih,
      List.all_cons]
    cases v.isFinite <;> cases row.all Value.isFinite <;> rfl

/-- The text of a row stands for numbers that have a literal. -/
theorem areExact_written (row : Row) :
    Json.areExact (Json.writtenItems (row.map Value.toJson)) = true := by
  induction row with
  | nil => rfl
  | cons v row ih =>
    rw [List.map_cons, Json.writtenItems, Json.areExact, v.isExact_written_toJson, ih]
    rfl

/-- A stored row reads as itself when it is finite and has a value for each column. -/
theorem decode_toBytes_eq (schema : Schema) (row : Row) :
    decode schema (toBytes row) =
      if row.all Value.isFinite then
        if row.length = schema.columns.length then .ok row
        else .error (.columnCount row.length schema.columns.length)
      else .error .malformed := by
  have hnesting := itemsNesting_map_toJson row
  have hdepth : (Json.arr (row.map Value.toJson)).nesting ≤ Json.maxDepth := by
    rw [Json.nesting, Json.maxDepth]
    omega
  have hexact : (Json.arr (row.map Value.toJson)).written.isExact = true := areExact_written row
  have hparse : Json.ofBytes? (toBytes row) =
      some (.arr (Json.writtenItems (row.map Value.toJson))) := by
    rw [toBytes, Json.ofBytes?_toBytes_eq hexact, if_pos hdepth, Json.written]
  rw [decode, hparse, Option.bind_some, Json.list?, mapM_written]
  cases row.all Value.isFinite <;> rfl

/-- A stored row of finite values with one for each column reads as itself. -/
theorem decode_toBytes (schema : Schema) {row : Row} (hfinite : Finite row)
    (hlength : row.length = schema.columns.length) : decode schema (toBytes row) = .ok row := by
  rw [decode_toBytes_eq, if_pos (List.all_eq_true.2 hfinite), if_pos hlength]

/-- A row that is read has a value for each column. -/
theorem length_of_decode {schema : Schema} {bytes : Bytes} {row : Row}
    (h : decode schema bytes = .ok row) : row.length = schema.columns.length := by
  unfold decode at h
  split at h
  · cases h
  · split at h
    · next hlength =>
      cases h
      exact hlength
    · cases h

/-- A stored row reads as nothing but itself. -/
theorem eq_of_decode_toBytes {schema : Schema} {row found : Row}
    (h : decode schema (toBytes row) = .ok found) : found = row := by
  rw [decode_toBytes_eq] at h
  split at h
  · split at h
    · exact (Except.ok.inj h).symm
    · cases h
  · cases h

end Row

end GraphStore
