import GraphStore.Proofs.Row.Slots

/-!
# Which stored rows can be read, and which conform to their schema

A row that is stored can be read back unless it holds a double without a literal, and a column
stores again what it holds unless that is a default which the column would not take. Given values
are checked, so what cannot be read may be given, but what does not conform comes from a default.
-/

namespace GraphStore

/-- Whether a value is of the column's type, in the range of its width, or a null that the column
may hold. -/
def Column.Admits (column : Column) : Value → Prop
  | .null => column.nullable = true
  | .bool _ => column.ty = .bool
  | .int i =>
    column.ty = .int8 ∧ -0x80 ≤ i.toInt ∧ i.toInt < 0x80 ∨
      column.ty = .int16 ∧ -0x8000 ≤ i.toInt ∧ i.toInt < 0x8000 ∨
      column.ty = .int32 ∧ -0x80000000 ≤ i.toInt ∧ i.toInt < 0x80000000 ∨
      column.ty = .int64 ∨ column.ty = .timestamp
  | .float _ => column.ty = .double
  | .str _ => column.ty = .string

/-- Whether a column stores its own default, if it has one, as it is. -/
def Column.KeepsDefault (column : Column) : Prop :=
  ∀ default, column.default = some default → Row.check column default = .ok default

instance (column : Column) : Decidable column.KeepsDefault :=
  decidable_of_iff (∀ default ∈ column.default, Row.check column default = .ok default) Iff.rfl

namespace Row

variable {schema : Schema} {names : List String} {values : List Value} {row : Row} {raw : Bytes}

/-- A column stores what it admits as it is. -/
theorem check_eq_self_iff {column : Column} {value : Value} :
    check column value = .ok value ↔ column.Admits value := by
  obtain ⟨name, ty, nullable, default⟩ := column
  cases value with
  | null =>
    cases nullable <;> cases ty <;> simp [check, Column.Admits]
  | bool b => cases ty <;> simp [check, Column.Admits]
  | int i => cases ty <;> simp [check, Column.Admits, checkInt_eq_ok]
  | float d => cases ty <;> simp [check, Column.Admits]
  | str s => cases ty <;> simp [check, Column.Admits]

/-- What a column stores for a value it stores as it is. -/
theorem check_of_check {column : Column} {given value : Value}
    (hcheck : check column given = .ok value) : check column value = .ok value := by
  rcases check_eq_ok hcheck with rfl | ⟨hdouble, i, rfl, rfl⟩
  · exact hcheck
  · exact check_eq_self_iff.2 hdouble

/-- What a column holds is stored again as it is, unless it is a default that the column would not
take. -/
theorem ComesFrom.check_iff {column : Column} {given : Bool} {value : Value}
    (h : ComesFrom values column given value) :
    check column value = .ok value ↔ given = true ∨ column.KeepsDefault := by
  cases given with
  | true =>
    obtain ⟨wanted, -, hcheck⟩ := h
    exact iff_of_true (check_of_check hcheck) (.inl rfl)
  | false =>
    rcases complete_none_eq_ok.1 h with hdefault | ⟨hdefault, hnullable, rfl⟩
    · constructor
      · intro hcheck
        refine .inr fun default heq => ?_
        obtain rfl := Option.some.inj (hdefault.symm.trans heq)
        exact hcheck
      · rintro (heq | hkeeps)
        · cases heq
        · exact hkeeps value hdefault
    · refine iff_of_true (check_eq_self_iff.2 hnullable) (.inr fun default heq => ?_)
      cases hdefault.symm.trans heq

/-- What a column holds is finite when the given values and the column's own default are. -/
theorem ComesFrom.isFinite {column : Column} {given : Bool} {value : Value}
    (h : ComesFrom values column given value) (hfinite : Finite values)
    (hdefault : given = false → ∀ default, column.default = some default →
      default.isFinite = true) : value.isFinite = true := by
  cases given with
  | true =>
    obtain ⟨wanted, hwanted, hcheck⟩ := h
    exact isFinite_of_check (hfinite wanted hwanted) hcheck
  | false => exact isFinite_of_complete h (hdefault rfl)

/-- A double without a literal that a column holds was given as it is, or is the column's default. -/
theorem ComesFrom.of_not_isFinite {column : Column} {given : Bool} {value : Value}
    (h : ComesFrom values column given value) (hvalue : value.isFinite = false) :
    value ∈ values ∨ column.default = some value := by
  cases given with
  | true =>
    obtain ⟨wanted, hwanted, hcheck⟩ := h
    rcases check_eq_ok hcheck with rfl | ⟨-, i, rfl, rfl⟩
    · exact .inl hwanted
    · have hint : (Value.int i).isFinite = true := rfl
      cases hvalue.symm.trans (isFinite_of_check hint hcheck)
  | false =>
    rcases complete_none_eq_ok.1 h with heq | ⟨-, -, rfl⟩
    · exact .inr heq
    · cases hvalue

/-- Values that their columns store as they are fill the slots in order. -/
theorem fillInOrder_self {columns : List Column} (hlength : row.length = columns.length)
    (hcheck : ∀ (i : Nat) (column : Column) (value : Value), columns[i]? = some column →
      row[i]? = some value → check column value = .ok value) :
    fillInOrder columns row = .ok (row.map some) := by
  induction columns generalizing row with
  | nil =>
    obtain rfl := List.length_eq_zero_iff.1 hlength
    rfl
  | cons column columns ih =>
    cases row with
    | nil => cases hlength
    | cons value row =>
      have hrest := ih (Nat.succ.inj hlength) fun i other found hother hfound =>
        hcheck (i + 1) other found hother hfound
      exact bind_eq_ok.2 ⟨value, hcheck 0 column value rfl rfl, bind_eq_ok.2 ⟨_, hrest, rfl⟩⟩

/-- A row is stored again as it is when each of its columns stores what it holds as it is. -/
theorem ofGiven_self_iff (hlength : row.length = schema.columns.length) :
    ofGiven schema [] row = .ok row ↔
      ∀ (i : Nat) (column : Column) (value : Value), schema.columns[i]? = some column →
        row[i]? = some value → check column value = .ok value := by
  have hslots : slots schema [] row = fillInOrder schema.columns row := by
    simp [slots, hlength]
  constructor
  · intro hrow i column value hcolumn hvalue
    obtain ⟨filled, hfill, hrow⟩ := bind_eq_ok.1 hrow
    rw [hslots] at hfill
    obtain ⟨slot, hslot, hfits⟩ := fillInOrder_fits hfill hcolumn
    obtain ⟨stored, hstored, hcomplete⟩ := completeAll_stores hrow hcolumn hslot
    obtain rfl := Option.some.inj (hvalue.symm.trans hstored)
    rw [hvalue] at hfits
    cases slot with
    | none => exact hfits.elim
    | some found =>
      cases hcomplete
      exact hfits
  · intro hcheck
    have hfill := hslots.trans (fillInOrder_self hlength hcheck)
    refine bind_eq_ok.2 ⟨_, hfill, completeAll_eq_ok (by rw [List.length_map, hlength]) hlength ?_⟩
    intro i column slot value _ hslot hvalue
    rw [List.getElem?_map, hvalue] at hslot
    cases hslot
    rfl

/-- The value of a row in a place is given or the column's own. -/
theorem comesFrom_getElem? (hrow : ofGiven schema names values = .ok row) {i : Nat}
    {column : Column} {value : Value} (hcolumn : schema.columns[i]? = some column)
    (hvalue : row[i]? = some value) :
    ComesFrom values column (gives schema names values i) value := by
  obtain ⟨found, hfound, hfrom⟩ := (comesFrom_of_ofGiven hrow).2 i column hcolumn
  obtain rfl := Option.some.inj (hvalue.symm.trans hfound)
  exact hfrom

/-- A stored row has a value for each column, and reads back as it was made unless it holds a double
without a literal. Such a double was given, or is the default of a column. -/
theorem decode_encode (h : encode schema names values = .ok raw) :
    ∃ row, ofGiven schema names values = .ok row ∧ row.length = schema.columns.length ∧
      decode schema raw = (if row.all Value.isFinite then .ok row else .error .malformed) ∧
      ∀ value ∈ row, value.isFinite = false →
        value ∈ values ∨ ∃ column ∈ schema.columns, column.default = some value := by
  obtain ⟨row, hrow, hraw⟩ := bind_eq_ok.1 h
  cases hraw
  have hlength := (comesFrom_of_ofGiven hrow).1
  refine ⟨row, hrow, hlength, ?_, fun value hvalue hinfinite => ?_⟩
  · rw [decode_toBytes_eq, if_pos hlength]
  · obtain ⟨i, hlt, rfl⟩ := List.mem_iff_getElem.1 hvalue
    have hcolumn := List.getElem?_eq_getElem (hlength ▸ hlt : i < schema.columns.length)
    have hfrom := comesFrom_getElem? hrow hcolumn (List.getElem?_eq_getElem hlt)
    exact (hfrom.of_not_isFinite hinfinite).imp id fun hdefault =>
      ⟨_, List.mem_of_getElem? hcolumn, hdefault⟩

/-- A person with an infinite score is stored, and cannot be read. -/
theorem decode_encode_of_infinite_score :
    let schema : Schema := { columns := [
      { name := "name", ty := .string }, { name := "score", ty := .double },
      { name := "level", ty := .int8, default := some (.int 1) }] }
    let infinity : Value := .float (.ofMagnitude false Double.infinityBits)
    let raw := toBytes [.str "ann", infinity, .int 1]
    encode schema ["score", "name"] [infinity, .str "ann"] = .ok raw ∧
      decode schema raw = .error .malformed := by
  intro schema infinity raw
  have hraw : encode schema ["score", "name"] [infinity, .str "ann"] = .ok raw := rfl
  obtain ⟨row, hrow, -, hdecode, -⟩ := decode_encode hraw
  have hmade : ofGiven schema ["score", "name"] [infinity, .str "ann"] =
      .ok [.str "ann", infinity, .int 1] := rfl
  obtain rfl := Except.ok.inj (hmade.symm.trans hrow)
  exact ⟨hraw, hdecode⟩

/-- Not every stored row can be read back: a score that is no number passes the check of its column,
but its text says null, which is read as no score. -/
theorem nan_score_unreadable :
    let schema : Schema := { columns := [{ name := "score", ty := .double }] }
    let raw := toBytes [.float .nan]
    encode schema [] [.float .nan] = .ok raw ∧ decode schema raw = .error .malformed := by
  decide +kernel

/-- A row of finite given values is finite exactly when the defaults that it takes are. -/
theorem finite_ofGiven_iff (hfinite : Finite values)
    (hrow : ofGiven schema names values = .ok row) :
    Finite row ↔ ∀ (i : Nat) (column : Column), schema.columns[i]? = some column →
      gives schema names values i = false →
        ∀ default, column.default = some default → default.isFinite = true := by
  obtain ⟨hlength, hcomes⟩ := comesFrom_of_ofGiven hrow
  constructor
  · intro hall i column hcolumn hfree default hdefault
    obtain ⟨value, hget, hfrom⟩ := hcomes i column hcolumn
    rw [hfree] at hfrom
    obtain rfl := Except.ok.inj (hfrom.symm.trans (complete_none_eq_ok.2 (.inl hdefault)))
    exact hall value (List.mem_of_getElem? hget)
  · intro hdefaults value hmem
    obtain ⟨i, hlt, rfl⟩ := List.mem_iff_getElem.1 hmem
    have hcolumn := List.getElem?_eq_getElem (hlength ▸ hlt : i < schema.columns.length)
    exact (comesFrom_getElem? hrow hcolumn (List.getElem?_eq_getElem hlt)).isFinite hfinite
      (hdefaults i _ hcolumn)

/-- A row that reads back is stored as the same bytes again exactly when it is made of itself. -/
theorem encode_self_iff (hdecode : decode schema (toBytes row) = .ok row) :
    encode schema [] row = .ok (toBytes row) ↔ ofGiven schema [] row = .ok row := by
  constructor
  · intro hagain
    obtain ⟨again, hmade, htext⟩ := bind_eq_ok.1 hagain
    rw [← Except.ok.inj htext] at hdecode
    obtain rfl := eq_of_decode_toBytes hdecode
    exact hmade
  · intro hagain
    exact bind_eq_ok.2 ⟨row, hagain, rfl⟩

/-- A row of finite given values can be read back exactly when the defaults that it takes are finite.
Just the columns that are given, or that store their own default as it is, hold what they store again
as it is, a value of their type and range; and the row that is read back is stored as the same bytes
exactly when all columns are such. That finite doubles read back is assumed of the reader of
numbers. -/
theorem stored_conforms_iff (hfinite : Finite values) (h : encode schema names values = .ok raw) :
    ∃ row, ofGiven schema names values = .ok row ∧ row.length = schema.columns.length ∧
      (decode schema raw = .ok row ↔ ∀ (i : Nat) (column : Column),
        schema.columns[i]? = some column → gives schema names values i = false →
          ∀ default, column.default = some default → default.isFinite = true) ∧
      (∀ (i : Nat) (column : Column) (value : Value), schema.columns[i]? = some column →
        row[i]? = some value →
          (check column value = .ok value ∧ column.Admits value ↔
            gives schema names values i = true ∨ column.KeepsDefault)) ∧
      (decode schema raw = .ok row →
        (encode schema [] row = .ok raw ↔ ∀ (i : Nat) (column : Column),
          schema.columns[i]? = some column →
            gives schema names values i = true ∨ column.KeepsDefault)) := by
  obtain ⟨row, hrow, hraw⟩ := bind_eq_ok.1 h
  cases hraw
  obtain ⟨hlength, hcomes⟩ := comesFrom_of_ofGiven hrow
  refine ⟨row, hrow, hlength, ?_, fun i column value hcolumn hget => ?_, fun hdecode => ?_⟩
  · have hread : decode schema (toBytes row) = .ok row ↔ Finite row := by
      rw [decode_toBytes_eq, if_pos hlength, Finite]
      simp
    rw [hread, finite_ofGiven_iff hfinite hrow]
  · rw [← check_eq_self_iff, and_self]
    exact (comesFrom_getElem? hrow hcolumn hget).check_iff
  · rw [encode_self_iff hdecode, ofGiven_self_iff hlength]
    constructor
    · intro hcheck i column hcolumn
      obtain ⟨value, hget, hfrom⟩ := hcomes i column hcolumn
      exact hfrom.check_iff.1 (hcheck i column value hcolumn hget)
    · intro hall i column value hcolumn hget
      exact (comesFrom_getElem? hrow hcolumn hget).check_iff.2 (hall i column hcolumn)

/-- A person whose level is taken from a default beyond its width can be read back, but is not stored
again as it is. -/
theorem stored_conforms_iff_of_overfull_default :
    let schema : Schema := { columns := [
      { name := "name", ty := .string }, { name := "score", ty := .double, nullable := true },
      { name := "level", ty := .int8, default := some (.int 300) }] }
    let raw := toBytes [.str "ann", .float (Double.ofInt 3), .int 300]
    Finite [.int 3, .str "ann"] ∧
      encode schema ["score", "name"] [.int 3, .str "ann"] = .ok raw ∧
      decode schema raw = .ok [.str "ann", .float (Double.ofInt 3), .int 300] ∧
      encode schema [] [.str "ann", .float (Double.ofInt 3), .int 300] ≠ .ok raw := by
  intro schema raw
  have hraw : encode schema ["score", "name"] [.int 3, .str "ann"] = .ok raw := rfl
  have hfinite : Finite [.int 3, .str "ann"] := by
    unfold Finite
    decide
  obtain ⟨row, hrow, -, hread, -, hagain⟩ := stored_conforms_iff hfinite hraw
  have hmade : ofGiven schema ["score", "name"] [.int 3, .str "ann"] =
      .ok [.str "ann", .float (Double.ofInt 3), .int 300] := rfl
  obtain rfl := Except.ok.inj (hmade.symm.trans hrow)
  have hdecode : decode schema raw = .ok [.str "ann", .float (Double.ofInt 3), .int 300] := by
    refine hread.2 fun i column hcolumn _ default hdefault => ?_
    have hall : ∀ column ∈ schema.columns, column.default.all Value.isFinite = true := by decide
    have hfound := hall column (List.mem_of_getElem? hcolumn)
    rwa [hdefault] at hfound
  refine ⟨hfinite, hraw, hdecode, fun hsame => ?_⟩
  -- Nothing is given for the level, and the level does not take its own default.
  rcases (hagain hdecode).1 hsame 2 _ rfl with hgiven | hkeeps
  · exact absurd hgiven (by decide)
  · cases hkeeps (.int 300) rfl

/-- Not every stored row conforms to its schema: a default is stored unchecked, so a level of a width
that it does not fit is read back, and refused when the row is stored again. -/
theorem overfull_level_stored :
    let schema : Schema := { columns := [
      { name := "name", ty := .string },
      { name := "level", ty := .int8, default := some (.int 300) }] }
    let raw := toBytes [.str "x", .int 300]
    encode schema ["name"] [.str "x"] = .ok raw ∧
      decode schema raw = .ok [.str "x", .int 300] ∧
      check { name := "level", ty := .int8, default := some (.int 300) } (.int 300) =
        .error .outOfRange ∧
      encode schema [] [.str "x", .int 300] = .error .outOfRange := by
  decide +kernel

end Row

end GraphStore
