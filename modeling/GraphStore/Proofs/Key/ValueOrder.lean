import GraphStore.Proofs.Encoding.Order
import GraphStore.Proofs.Key.IndexRoundTrip

/-!
# Byte order of column values

In a column of any type but double the bytes of comparable values are ordered as the values are.
The bytes of doubles are in the total order of the patterns.
-/

namespace GraphStore

namespace Key

/-- Integers are ordered as their bytes. -/
theorem compare_ordered64 (i j : Int64) : compare (ordered64 i) (ordered64 j) = compare i j := by
  have hbounds (k : Int64) : 0 ≤ k.toInt + 0x8000000000000000 ∧
      k.toInt + 0x8000000000000000 < 256 ^ 8 := by
    have hlow := k.le_toInt
    have hhigh := k.toInt_lt
    omega
  obtain ⟨hi, hi'⟩ := hbounds i
  obtain ⟨hj, hj'⟩ := hbounds j
  rw [ordered64, ordered64, Bytes.compare_bigEndian (by omega) (by omega)]
  cases hij : compare i j with
  | lt =>
    have hlt := Int64.lt_iff_toInt_lt.1 (Std.compare_eq_lt.1 hij)
    exact Nat.compare_eq_lt.2 (by omega)
  | eq =>
    obtain rfl := Std.LawfulEqCmp.eq_of_compare hij
    exact Std.ReflCmp.compare_self
  | gt =>
    have hgt := Int64.lt_iff_toInt_lt.1 (Std.compare_eq_gt.1 hij)
    exact Nat.compare_eq_gt.2 (by omega)

/-- A double takes eight bytes. -/
theorem length_orderedDouble (d : Double) : (orderedDouble d).length = 8 :=
  Bytes.length_bigEndian ..

/-- Doubles are ordered in bytes as their patterns are in the total order. -/
theorem compare_orderedDouble (d e : Double) :
    compare (orderedDouble d) (orderedDouble e) = compare d.orderKey e.orderKey :=
  Bytes.compare_bigEndian d.orderKey_lt e.orderKey_lt

end Key

namespace IndexLayout

variable {column : Column} {value other : Value} {raw otherRaw : Bytes} {ordering : Ordering}

/-- Every column but one of doubles writes an integer in order. -/
theorem encodeValue_int {i : Int64} (hty : column.ty ≠ .double)
    (h : encodeValue column (.int i) = .ok raw) : raw = Key.ordered64 i := by
  cases hcolumn : column.ty <;> simp only [encodeValue, hcolumn] at h <;> cases h
  all_goals first | rfl | exact absurd hcolumn hty

/-- Only a column of doubles takes a double. -/
theorem encodeValue_float {d : Double} (h : encodeValue column (.float d) = .ok raw) :
    column.ty = .double ∧ raw = Key.orderedDouble d := by
  cases hcolumn : column.ty <;> simp only [encodeValue, hcolumn] at h <;> cases h
  exact ⟨rfl, rfl⟩

/-- Comparable values of a column are ordered as their bytes, unless they are doubles. -/
theorem compare_encodeValue (hty : column.ty ≠ .double) (h : encodeValue column value = .ok raw)
    (hother : encodeValue column other = .ok otherRaw) (hcompare : value.compare? other = some ordering) :
    compare raw otherRaw = ordering := by
  cases value with
  | null => cases other <;> cases hcompare
  | bool b =>
    cases other with
    | bool c =>
      cases hcolumn : column.ty <;> simp only [encodeValue, hcolumn] at h hother <;> cases h
      cases hother
      rw [← Option.some.inj hcompare]
      cases b <;> cases c <;> rfl
    | _ => cases hcompare
  | int i =>
    cases other with
    | int j =>
      rw [encodeValue_int hty h, encodeValue_int hty hother, Key.compare_ordered64]
      exact Option.some.inj hcompare
    | float d => exact absurd (encodeValue_float hother).1 hty
    | _ => cases hcompare
  | float d => exact absurd (encodeValue_float h).1 hty
  | str s =>
    cases other with
    | str t =>
      rw [← Option.some.inj hcompare, ← Utf8.compare_ofString]
      cases hcolumn : column.ty <;> simp only [encodeValue, hcolumn] at h hother <;> cases h
      cases hother
      rfl
    | _ => cases hcompare

end IndexLayout

end GraphStore
