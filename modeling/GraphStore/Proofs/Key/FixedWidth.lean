import GraphStore.Proofs.Key.ValueOrder
import GraphStore.Proofs.Number.Order

/-!
# Order of fixed-width index keys

In an index of booleans, integers, timestamps and doubles every column takes the same bytes for all
values, and these are in the order of the values: doubles in the total order of their patterns,
among which an integer counts as its nearest double. So the keys of entries without nulls are
compared column by column, and by their entities only where all columns are equal.
-/

namespace GraphStore

namespace Double

variable {d e : Double}

/-- The total order of patterns: negative ones come before positive ones, and of one sign those of
smaller magnitude come first among positive ones, and last among negative ones. -/
def totalCompare (d e : Double) : Ordering :=
  match d.negative, e.negative with
  | true, false => .lt
  | false, true => .gt
  | false, false => compare d.magnitude e.magnitude
  | true, true => compare e.magnitude d.magnitude

/-- The total order is that of the places. -/
theorem compare_orderKey (d e : Double) : compare d.orderKey e.orderKey = d.totalCompare e := by
  have hd := d.magnitude_lt
  have he := e.magnitude_lt
  rw [orderKey_eq, orderKey_eq, totalCompare]
  cases d.negative with
  | false =>
    cases e.negative with
    | false =>
      simp only [Bool.false_eq_true, if_false, Nat.compare_eq_ite_lt]
      grind
    | true => exact Nat.compare_eq_gt.2 (by simp; omega)
  | true =>
    cases e.negative with
    | false => exact Nat.compare_eq_lt.2 (by simp; omega)
    | true =>
      simp only [if_true, Nat.compare_eq_ite_lt]
      grind

/-- In the total order a pattern is equal to itself alone. -/
theorem totalCompare_eq_eq : d.totalCompare e = .eq ↔ d = e := by
  rw [← compare_orderKey, Nat.compare_eq_eq, orderKey_injective.eq_iff]

end Double

namespace Value

variable {value other : Value} {values others : List Value} {ordering : Ordering}

/-- The order of two booleans, two integers or two doubles; none of other values. Doubles are in
the total order of their patterns. -/
def totalCompare? : Value → Value → Option Ordering
  | bool b, bool c => some (compare b c)
  | int i, int j => some (compare i j)
  | float d, float e => some (d.totalCompare e)
  | _, _ => none

/-- The order of two rows of values, in which the first difference decides; none unless they have
an order in each place. -/
def totalCompareAll? : List Value → List Value → Option Ordering
  | [], [] => some .eq
  | value :: values, other :: others => do
    let first ← value.totalCompare? other
    let rest ← totalCompareAll? values others
    return first.then rest
  | _, _ => none

/-- In order a value is equal to itself alone. -/
theorem eq_iff_of_totalCompare? (h : value.totalCompare? other = some ordering) :
    ordering = .eq ↔ value = other := by
  cases value with
  | bool b =>
    cases other with
    | bool c =>
      cases h
      rw [Std.LawfulEqCmp.compare_eq_iff_eq, bool.injEq]
    | _ => cases h
  | int i =>
    cases other with
    | int j =>
      cases h
      rw [Std.LawfulEqCmp.compare_eq_iff_eq, int.injEq]
    | _ => cases h
  | float d =>
    cases other with
    | float e =>
      cases h
      rw [Double.totalCompare_eq_eq, float.injEq]
    | _ => cases h
  | null => cases h
  | str s => cases h

/-- Rows have an order when their first values and the values behind them have one. -/
theorem totalCompareAll?_cons :
    totalCompareAll? (value :: values) (other :: others) = some ordering ↔
      ∃ first rest, value.totalCompare? other = some first ∧
        totalCompareAll? values others = some rest ∧ first.then rest = ordering := by
  simp only [totalCompareAll?, Option.bind_eq_bind, Option.bind_eq_some_iff, Option.pure_def,
    Option.some.injEq]
  exact ⟨fun ⟨first, hfirst, rest, hrest, h⟩ => ⟨first, rest, hfirst, hrest, h⟩,
    fun ⟨first, rest, hfirst, hrest, h⟩ => ⟨first, hfirst, rest, hrest, h⟩⟩

/-- In order a row is equal to itself alone. -/
theorem eq_iff_of_totalCompareAll? (h : totalCompareAll? values others = some ordering) :
    ordering = .eq ↔ values = others := by
  induction values generalizing others ordering with
  | nil =>
    cases others with
    | nil =>
      cases h
      exact iff_of_true rfl rfl
    | cons other others => cases h
  | cons value values ih =>
    cases others with
    | nil => cases h
    | cons other others =>
      obtain ⟨first, rest, hfirst, hrest, hordering⟩ := totalCompareAll?_cons.1 h
      subst hordering
      rw [Ordering.then_eq_eq, eq_iff_of_totalCompare? hfirst, ih hrest, List.cons.injEq]

end Value

namespace IndexLayout

variable {layout : IndexLayout} {part : PartId} {column : Column} {columns : List Column}
  {value other : Value} {values others : List Value} {raw otherRaw key otherKey : Bytes}
  {encoded otherEncoded : Columns} {entity otherEntity : Entity} {i : Nat}

/-- What a column of fixed width writes of a value that is not null. -/
inductive Writes (column : Column) : Value → Bytes → Prop where
  | bool (hty : column.ty = .bool) (b : Bool) : Writes column (.bool b) [if b then 1 else 0]
  | int (hbool : column.ty ≠ .bool) (hdouble : column.ty ≠ .double) (i : Int64) :
      Writes column (.int i) (Key.ordered64 i)
  | float (hty : column.ty = .double) (d : Double) :
      Writes column (.float d) (Key.orderedDouble d)

/-- A column of fixed width writes what it keeps of a value. -/
theorem writes_of_encodeValue (hfixed : column.ty.isVarLen = false)
    (h : encodeValue column value = .ok raw) (hvalue : value ≠ .null) :
    Writes column (keptValue column value) raw := by
  cases value with
  | null => exact absurd rfl hvalue
  | bool b =>
    cases hty : column.ty <;> simp only [encodeValue, hty] at h <;> cases h
    exact .bool hty b
  | int i =>
    by_cases hdouble : column.ty = .double
    · simp only [encodeValue, hdouble] at h
      cases h
      rw [keptValue, if_pos hdouble]
      exact .float hdouble _
    · have hbool : column.ty ≠ .bool := by
        intro hty
        simp only [encodeValue, hty] at h
        cases h
      rw [encodeValue_int hdouble h, keptValue, if_neg hdouble]
      exact .int hbool hdouble i
  | float d =>
    obtain ⟨hty, rfl⟩ := encodeValue_float h
    exact .float hty d
  | str s =>
    have hty : column.ty = .string := by
      cases hty : column.ty <;> simp only [encodeValue, hty] at h <;> cases h
      rfl
    rw [hty] at hfixed
    cases hfixed

/-- The bytes of a column are in the order of what it keeps of its values. -/
theorem Writes.compare_eq (h : Writes column value raw) (h' : Writes column other otherRaw) :
    value.totalCompare? other = some (compare raw otherRaw) := by
  cases h with
  | bool hty b =>
    cases h' with
    | bool _ c => cases b <;> cases c <;> rfl
    | int hbool => exact absurd hty hbool
    | float hdouble => cases hty.symm.trans hdouble
  | int hbool hdouble i =>
    cases h' with
    | bool hty => exact absurd hty hbool
    | int _ _ j => rw [Value.totalCompare?, Key.compare_ordered64]
    | float hty => exact absurd hty hdouble
  | float hty d =>
    cases h' with
    | bool hbool => cases hty.symm.trans hbool
    | int _ hdouble => exact absurd hty hdouble
    | float _ e => rw [Value.totalCompare?, Key.compare_orderedDouble, Double.compare_orderKey]

/-- Columns of fixed width leave no lengths, and without nulls no bits in the map of nulls. -/
theorem encodeColumns_fixedWidth (hfixed : ∀ column ∈ columns, column.ty.isVarLen = false)
    (h : encodeColumns i columns values = .ok encoded) (hnull : .null ∉ values) :
    encoded.nulls = 0 ∧ encoded.lengths = [] := by
  induction columns generalizing i values encoded with
  | nil =>
    cases values <;> cases h <;> exact ⟨rfl, rfl⟩
  | cons column columns ih =>
    cases values with
    | nil =>
      cases h
      exact ⟨rfl, rfl⟩
    | cons value values =>
      obtain ⟨bytes, rest, -, -, hrest, hencoded⟩ := encodeColumns_cons.1 h
      rw [List.forall_mem_cons] at hfixed
      rw [List.mem_cons, not_or] at hnull
      obtain ⟨hnulls, hlengths⟩ := ih hfixed.2 hrest hnull.2
      have hvalue : value.isNull = false := by
        cases value with
        | null => exact absurd rfl hnull.1
        | _ => rfl
      rw [hencoded, hvalue, hfixed.1, hnulls, hlengths]
      exact ⟨rfl, rfl⟩

/-- The bytes of columns of fixed width are as long for all values, and in the order of what the
columns keep of them. -/
theorem compare_encodeColumns (hfixed : ∀ column ∈ columns, column.ty.isVarLen = false)
    (h : encodeColumns i columns values = .ok encoded)
    (h' : encodeColumns i columns others = .ok otherEncoded)
    (hlength : values.length = columns.length) (hlength' : others.length = columns.length)
    (hnull : .null ∉ values) (hnull' : .null ∉ others) :
    encoded.bytes.length = otherEncoded.bytes.length ∧
      Value.totalCompareAll? (keptValues columns values) (keptValues columns others) =
        some (compare encoded.bytes otherEncoded.bytes) := by
  induction columns generalizing i values others encoded otherEncoded with
  | nil =>
    rw [List.length_eq_zero_iff.1 hlength] at h ⊢
    rw [List.length_eq_zero_iff.1 hlength'] at h' ⊢
    cases h
    cases h'
    exact ⟨rfl, rfl⟩
  | cons column columns ih =>
    cases values with
    | nil => cases hlength
    | cons value values =>
      cases others with
      | nil => cases hlength'
      | cons other others =>
        obtain ⟨raw, rest, hraw, -, hrest, hencoded⟩ := encodeColumns_cons.1 h
        obtain ⟨otherRaw, otherRest, hotherRaw, -, hotherRest, hotherEncoded⟩ :=
          encodeColumns_cons.1 h'
        rw [List.forall_mem_cons] at hfixed
        rw [List.mem_cons, not_or] at hnull hnull'
        obtain ⟨hbehind, horder⟩ := ih hfixed.2 hrest hotherRest (Nat.succ.inj hlength)
          (Nat.succ.inj hlength') hnull.2 hnull'.2
        obtain ⟨width, hwidth⟩ : ∃ width, fixedWidth? column.ty = some width := by
          rw [← Option.isSome_iff_exists, ← Option.not_isNone, ← isVarLen_eq_isNone, hfixed.1]
          rfl
        have hfirst : raw.length = otherRaw.length :=
          (length_of_encodeValue hraw hwidth).trans (length_of_encodeValue hotherRaw hwidth).symm
        have hvalues := (writes_of_encodeValue hfixed.1 hraw (Ne.symm hnull.1)).compare_eq
          (writes_of_encodeValue hfixed.1 hotherRaw (Ne.symm hnull'.1))
        rw [hencoded, hotherEncoded]
        constructor
        · rw [List.length_append, List.length_append, hfirst, hbehind]
        · rw [Bytes.compare_append hfirst]
          exact Value.totalCompareAll?_cons.2 ⟨_, _, hvalues, horder, rfl⟩

/-- Keys of fixed width sort like their values. In an index of booleans, integers, timestamps and
doubles two entries of a partition without nulls are in the order of their values, column by column
as the columns keep them, and only where all of these are equal in the order of their entities. And
every value is found again in its bytes, bit for bit. -/
theorem fixedWidth_order (layout : IndexLayout) (part : PartId) :
    (∀ (values others : List Value) (entity other : Entity) (key otherKey : Bytes),
      (∀ column ∈ layout.index.columns, column.ty.isVarLen = false) →
      .null ∉ values → .null ∉ others →
      layout.encodeKey part values entity = .ok key →
      layout.encodeKey part others other = .ok otherKey →
      ∃ ordering raw otherRaw,
        Value.totalCompareAll? (keptValues layout.index.columns values)
          (keptValues layout.index.columns others) = some ordering ∧
        layout.encodeEntity entity = .ok raw ∧ layout.encodeEntity other = .ok otherRaw ∧
        compare key otherKey = ordering.then (compare raw otherRaw) ∧
        (ordering = .eq ↔ keptValues layout.index.columns values =
          keptValues layout.index.columns others)) ∧
    (∀ i : Int64, Key.readOrdered64 (Key.ordered64 i) = i) ∧
    (∀ i : Int32, Key.readOrdered32 (Key.ordered32 i) = i) ∧
    (∀ d : Double, Key.readOrderedDouble (Key.orderedDouble d) = d) ∧
    ∀ (column : Column) (value : Value) (raw : Bytes), column.ty.isVarLen = false →
      value ≠ .null → encodeValue column value = .ok raw →
        decodeValue column.ty raw = keptValue column value := by
  refine ⟨?_, Key.readOrdered64_ordered64, Key.readOrdered32_ordered32,
    readOrderedDouble_orderedDouble, fun _ _ _ _ hvalue h => decodeValue_encodeValue h hvalue⟩
  intro values others entity other key otherKey hfixed hnull hnull' h h'
  obtain ⟨encoded, raw, hparts⟩ := encodeKey_eq_ok h
  obtain ⟨otherEncoded, otherRaw, hotherParts⟩ := encodeKey_eq_ok h'
  obtain ⟨hlength, horder⟩ := compare_encodeColumns hfixed hparts.columns hotherParts.columns
    hparts.length_eq hotherParts.length_eq hnull hnull'
  obtain ⟨hnulls, hlengths⟩ := encodeColumns_fixedWidth hfixed hparts.columns hnull
  obtain ⟨hnulls', hlengths'⟩ := encodeColumns_fixedWidth hfixed hotherParts.columns hnull'
  refine ⟨_, raw, otherRaw, horder, hparts.entity, hotherParts.entity, ?_,
    Value.eq_iff_of_totalCompareAll? horder⟩
  rw [← hparts.key_eq, ← hotherParts.key_eq, hnulls, hnulls', hlengths, hlengths',
    Bytes.compare_append_left, Bytes.compare_append hlength, List.flatMap_nil, List.append_nil,
    List.append_nil, Bytes.compare_append_left]

/-- An index of vertices by a flag, a level and a score. -/
def scores : IndexLayout where
  index := {
    id := 7, name := "scores", owner := .tag 3
    columns := [
      { name := "active", ty := .bool },
      { name := "level", ty := .int8 },
      { name := "score", ty := .double } ] }
  vidLen := 4

/-- What stands before the scores in the keys of active vertices of the second level. -/
def scoresStem : Bytes := [3, 0, 0, 1, 128, 0, 0, 7, 1, 128, 0, 0, 0, 0, 0, 0, 2]

/-- The key of a negative zero comes before that of a zero written as an integer, although the
vertex of the former is the later one. A zero written as a double is the same value as the integer,
so here the vertices decide. -/
theorem fixedWidth_order_of_zeros :
    let negative := scoresStem ++ [127, 255, 255, 255, 255, 255, 255, 255, 98, 0, 0, 0]
    let zero := scoresStem ++ [128, 0, 0, 0, 0, 0, 0, 0, 97, 0, 0, 0]
    let again := scoresStem ++ [128, 0, 0, 0, 0, 0, 0, 0, 99, 0, 0, 0]
    scores.encodeKey 1 [.bool true, .int 2, .float ⟨0x8000000000000000⟩] (.vertex "b") =
        .ok negative ∧
      scores.encodeKey 1 [.bool true, .int 2, .int 0] (.vertex "a") = .ok zero ∧
      scores.encodeKey 1 [.bool true, .int 2, .float ⟨0⟩] (.vertex "c") = .ok again ∧
      compare negative zero = .lt ∧ compare zero again = .lt := by
  intro negative zero again
  have hfixed : ∀ column ∈ scores.index.columns, column.ty.isVarLen = false := by decide
  have hnegative : scores.encodeKey 1 [.bool true, .int 2, .float ⟨0x8000000000000000⟩]
      (.vertex "b") = .ok negative := by decide +kernel
  have hzero : scores.encodeKey 1 [.bool true, .int 2, .int 0] (.vertex "a") = .ok zero := by
    decide +kernel
  have hagain : scores.encodeKey 1 [.bool true, .int 2, .float ⟨0⟩] (.vertex "c") = .ok again := by
    decide +kernel
  refine ⟨hnegative, hzero, hagain, ?_, ?_⟩
  · obtain ⟨ordering, raw, otherRaw, hvalues, -, -, hkeys, -⟩ :=
      (fixedWidth_order scores 1).1 _ _ _ _ _ _ hfixed (by decide) (by decide) hnegative hzero
    have hordering : ordering = .lt :=
      Option.some.inj (hvalues.symm.trans (by decide +kernel))
    rw [hkeys, hordering, Ordering.lt_then]
  · obtain ⟨ordering, raw, otherRaw, -, hraw, hother, hkeys, hequal⟩ :=
      (fixedWidth_order scores 1).1 _ _ _ _ _ _ hfixed (by decide) (by decide) hzero hagain
    have hordering : ordering = .eq := hequal.2 (by decide +kernel)
    have hvertices : raw = [97, 0, 0, 0] ∧ otherRaw = [99, 0, 0, 0] :=
      ⟨Except.ok.inj (hraw.symm.trans (by decide +kernel)),
        Except.ok.inj (hother.symm.trans (by decide +kernel))⟩
    rw [hkeys, hordering, hvertices.1, hvertices.2]
    decide +kernel

end IndexLayout

end GraphStore
