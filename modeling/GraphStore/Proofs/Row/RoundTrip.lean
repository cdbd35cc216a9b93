import GraphStore.Row.Codec
import GraphStore.Proofs.Json.RoundTrip

/-!
# Stored values read back

A value is read from its JSON form as it is, and if it is finite that form is exact. What a column
stores for a given value is the value itself, or the double nearest to an integer.
-/

namespace GraphStore

namespace Value

/-- Whether a value is not a double without a literal. -/
def isFinite : Value → Bool
  | float d => d.isFinite
  | _ => true

/-- A 64-bit integer is read from its literal. -/
theorem int64?_toInt (i : Int64) : Json.int64? (.int i.toInt) = some i := by
  have hmin := i.le_toInt
  have hmax := i.toInt_lt
  simp only [Json.int64?, Json.intWithin?]
  rw [if_pos (by omega), Option.map_some, Int64.ofInt_toInt]

/-- The JSON form of a value is read as it. -/
@[simp] theorem ofJson?_toJson (buffered : Bool) (v : Value) :
    ofJson? buffered v.toJson = some v := by
  cases v with
  | null => rfl
  | bool b => rfl
  | int i =>
    simp only [ofJson?, toJson, Json.variant?, int64?_toInt]
    rfl
  | float d => rfl
  | str s => rfl

/-- The JSON form of a finite value is exact. -/
theorem isExact_toJson {v : Value} (hfinite : v.isFinite = true) : v.toJson.isExact = true := by
  cases v with
  | null => rfl
  | bool b => rfl
  | int i =>
    have hmin := i.le_toInt
    have hmax := i.toInt_lt
    have hlow : Json.minInt ≤ i.toInt := by
      rw [Json.minInt]
      omega
    have hhigh : i.toInt ≤ Json.maxInt := by
      rw [Json.maxInt]
      omega
    simp [toJson, Json.isExact, Json.membersExact, hlow, hhigh]
  | float d =>
    simp only [toJson, Json.isExact, Json.membersExact, Bool.and_true]
    exact hfinite
  | str s => rfl

/-- The JSON form of a value is at most one object. -/
theorem nesting_toJson (v : Value) : v.toJson.nesting ≤ 1 := by
  cases v <;> simp [toJson, Json.nesting, Json.membersNesting]

end Value

namespace Row

/-- Whether every value is finite. -/
def Finite (row : List Value) : Prop := ∀ v ∈ row, v.isFinite = true

/-- The JSON forms of values nest at most one deep. -/
theorem itemsNesting_map_toJson (row : Row) :
    Json.itemsNesting (row.map Value.toJson) ≤ 1 := by
  induction row with
  | nil => simp [Json.itemsNesting]
  | cons v row ih =>
    have hv := v.nesting_toJson
    rw [List.map_cons, Json.itemsNesting]
    omega

/-- An integer is stored as it is when it is in the range of its width. -/
theorem checkInt_eq_ok {i : Int64} {bits : Nat} {value : Value} :
    checkInt i bits = .ok value ↔
      value = .int i ∧ -(2 ^ (bits - 1) : Int) ≤ i.toInt ∧ i.toInt < 2 ^ (bits - 1) := by
  unfold checkInt
  simp only [Nat.pow_eq, Nat.cast_pow, Nat.cast_ofNat]
  split
  · next hrange => simp [hrange, eq_comm]
  · next hrange => simp [hrange]

/-- What a column stores for a given value: the value itself, or the double nearest to an
integer. -/
theorem check_eq_ok {column : Column} {given value : Value}
    (hcheck : check column given = .ok value) :
    value = given ∨ column.ty = .double ∧ ∃ i, given = .int i ∧ value = .float (.ofInt i.toInt) := by
  unfold check at hcheck
  split at hcheck
  · split at hcheck
    · cases hcheck
      exact .inl rfl
    · cases hcheck
  · exact .inl (Except.ok.inj hcheck).symm
  · exact .inl (checkInt_eq_ok.1 hcheck).1
  · exact .inl (checkInt_eq_ok.1 hcheck).1
  · exact .inl (checkInt_eq_ok.1 hcheck).1
  · exact .inl (Except.ok.inj hcheck).symm
  · exact .inl (Except.ok.inj hcheck).symm
  · exact .inl (Except.ok.inj hcheck).symm
  · next hty => exact .inr ⟨hty, _, rfl, (Except.ok.inj hcheck).symm⟩
  · exact .inl (Except.ok.inj hcheck).symm
  · cases hcheck

/-- A checked value is finite when the given one is. -/
theorem isFinite_of_check {column : Column} {given value : Value}
    (hfinite : given.isFinite = true) (hcheck : check column given = .ok value) :
    value.isFinite = true := by
  rcases check_eq_ok hcheck with rfl | ⟨-, i, -, rfl⟩
  · exact hfinite
  · have hmin := i.le_toInt
    have hmax := i.toInt_lt
    exact Double.isFinite_ofInt (by omega)

end Row

end GraphStore
