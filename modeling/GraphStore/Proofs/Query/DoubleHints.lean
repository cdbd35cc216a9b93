import GraphStore.Proofs.Filter.Comparison
import GraphStore.Proofs.Filter.Truth
import GraphStore.Proofs.Number.Order
import GraphStore.Proofs.Query.FilterSources
import GraphStore.Proofs.Query.Hints

/-!
# Hints on doubles

A hint on a leading column of doubles reads the keys by their bytes, in which the two zeros differ,
while a filter compares numbers. So the hint finds what a scan of the whole index finds with the
filter of the hint, except for entries with a zero: a hint that asks for a zero skips the other one,
and a range from positive zero on skips negative zero.
-/

namespace GraphStore

/-- A column of doubles writes the double of a number. -/
theorem IndexLayout.encodeValue_of_double? {column : Column} (hty : column.ty = .double)
    {value : Value} {d : Double} (h : value.double? = some d) :
    encodeValue column value = .ok (Key.orderedDouble d) := by
  cases value <;> cases h <;> simp only [encodeValue, hty]

/-- The values that a narrowing names. -/
def Narrowing.values : Narrowing → List Value
  | .equal value => [value]
  | .range low high => [low, high]

namespace ColumnHint

/-- The filter that says what a hint says. -/
def filter (hint : ColumnHint) : Expr :=
  match hint.scan with
  | .equal value => .relational .eq (.property hint.column) (.constant value)
  | .range low high => .logical .and
      [.relational .ge (.property hint.column) (.constant low),
        .relational .lt (.property hint.column) (.constant high)]

/-- Whether a hint on doubles passes over a value for the sign of a zero. -/
def skips (hint : ColumnHint) (value : Value) : Bool :=
  match hint.scan, value with
  | .equal expected, .float x =>
    match expected.double? with
    | some d => x.isZero && d.isZero && x ≠ d
    | none => false
  | .range low _, .float x => low.double? = some .positiveZero && x = .negativeZero
  | _, _ => false

/-- The filter of a hint holds of the values that meet the hint. -/
theorem holds_filter {hint : ColumnHint} {row : String → Option Value} :
    hint.filter.holds row = true ↔ hint.MetBy ((row hint.column).getD .null) := by
  unfold filter MetBy Expr.holds
  rw [decide_eq_true_eq]
  cases hint.scan with
  | equal expected => simp only [Expr.eval, RelOp.apply_eq_eq_true]
  | range low high =>
    rw [Expr.eval_and_eq_true]
    simp only [Expr.eval, List.forall_mem_cons, List.not_mem_nil, false_imp_iff, implies_true,
      and_true, RelOp.apply_ge_eq_true, RelOp.apply_lt_eq_true, InRange]

end ColumnHint

namespace IndexLayout

variable {layout : IndexLayout} {part : PartId} {column : Column} {others : List Column}
  {value : Value} {values : List Value} {entity : Entity} {key raw : Bytes}

/-- A column of doubles keeps null, and of a number its double, in the order of the patterns. -/
theorem encodeValue_double (hty : column.ty = .double) (h : encodeValue column value = .ok raw) :
    keptValue column value = .null ∨
      ∃ x, keptValue column value = .float x ∧ raw = Key.orderedDouble x := by
  cases value <;> simp only [encodeValue, hty] at h
  case null => exact .inl rfl
  case int i =>
    cases h
    exact .inr ⟨Double.ofInt i.toInt, if_pos hty, rfl⟩
  case float d =>
    cases h
    exact .inr ⟨d, rfl, rfl⟩
  all_goals cases h

/-- The first column comes right behind the stem of the index. -/
theorem key_of_columns_cons (hcolumns : layout.index.columns = column :: others)
    (h : layout.encodeKey part values entity = .ok key) :
    ∃ value rest raw behind, values = value :: rest ∧ encodeValue column value = .ok raw ∧
      key = Key.indexStem part layout.index.id ++ (raw ++ behind) := by
  obtain ⟨encoded, entityRaw, hparts⟩ := encodeKey_eq_ok h
  have hlength := hparts.length_eq
  have hencoded := hparts.columns
  rw [hcolumns] at hlength hencoded
  cases values with
  | nil => cases hlength
  | cons value rest =>
    obtain ⟨raw, tail, hraw, -, -, heq⟩ := encodeColumns_cons.1 hencoded
    have hkey := hparts.key_eq
    rw [heq] at hkey
    dsimp only at hkey
    rw [List.append_assoc raw] at hkey
    exact ⟨value, rest, raw, _, rfl, hraw, hkey.symm⟩

end IndexLayout

namespace Candidate.IsOf

variable {layout : IndexLayout} {part : PartId} {p : Partition} {hit : Candidate}
  {column : Column} {others : List Column}

/-- Under the name of the first column a filter finds the first value of a hit. -/
theorem filterValue?_first (h : hit.IsOf layout part p)
    (hcolumns : layout.index.columns = column :: others)
    (hname : column.name ∉ resultColumns layout.isEdge []) :
    hit.filterValue? (.indexKey layout) column.name = hit.indexValues[0]? := by
  have hkind : hit.entity.isEdge = layout.isEdge := by
    rw [IndexLayout.entity_of_decodeKey h.read, IndexLayout.decodeEntity, IndexLayout.isEdge]
    cases layout.index.owner <;> rfl
  have hposition : layout.position? column.name = some 0 := by
    rw [IndexLayout.position?, hcolumns, List.findIdx?_cons, beq_self_eq_true, if_pos rfl]
  rw [filterValue?, Entity.property?_eq_none (hkind ▸ hname), Option.none_or]
  simp only [IndexLayout.valueIn?, hposition, Option.bind_some]

end Candidate.IsOf

/-- The first value of a hit is written right behind the stem of the index. -/
theorem IndexLayout.OnlyEntries.exists_first {layout : IndexLayout} {part : PartId} {p : Partition}
    {column : Column} {others : List Column} {hit : Candidate}
    (hentries : layout.OnlyEntries part p) (hcolumns : layout.index.columns = column :: others)
    (hof : hit.IsOf layout part p) :
    ∃ value rest raw behind, hit.indexValues = keptValue column value :: rest ∧
      encodeValue column value = .ok raw ∧
      hit.key = Key.indexStem part layout.index.id ++ (raw ++ behind) := by
  obtain ⟨values, entity, hencode, hvalues⟩ := hentries.exists_encodeKey hof
  obtain ⟨value, rest, raw, behind, rfl, hraw, hkey⟩ := key_of_columns_cons hcolumns hencode
  rw [hcolumns, keptValues, List.zipWith_cons_cons] at hvalues
  exact ⟨value, _, raw, behind, hvalues, hraw, hkey⟩

namespace ColumnHint

variable {hint : ColumnHint} {x d : Double} {value low high : Value}

/-- A hint that asks for a number skips the other zero. -/
theorem skips_equal (hscan : hint.scan = .equal value) (hvalue : value.double? = some d) :
    hint.skips (.float x) = true ↔ x.isZero = true ∧ d.isZero = true ∧ x ≠ d := by
  simp [skips, hscan, hvalue, and_assoc]

/-- A range from positive zero on skips negative zero. -/
theorem skips_range (hscan : hint.scan = .range low high) (hlow : low.double? = some d) :
    hint.skips (.float x) = true ↔ d = .positiveZero ∧ x = .negativeZero := by
  simp [skips, hscan, hlow]

end ColumnHint

namespace QueryScope

open ColumnHint

variable {scope : QueryScope} {part : PartId} {p : Partition} {layout : IndexLayout}
  {column : Column} {others : List Column} {hint : ColumnHint}

/-- Keys with a double behind the stem begin with the stem and a double if that is the same. -/
theorem isPrefixOf_orderedDouble (stem behind : Bytes) (d x : Double) :
    (stem ++ Key.orderedDouble d).isPrefixOf (stem ++ (Key.orderedDouble x ++ behind)) = true ↔
      x = d := by
  rw [List.isPrefixOf_iff_prefix, List.prefix_append_right_inj]
  constructor
  · rintro ⟨rest, hrest⟩
    have hlength : (Key.orderedDouble d).length = (Key.orderedDouble x).length := by
      rw [Key.length_orderedDouble, Key.length_orderedDouble]
    have hsame := congrArg Key.readOrderedDouble (List.append_inj_left hrest hlength)
    simpa using hsame.symm
  · rintro rfl
    exact List.prefix_append ..

/-- Keys with a double behind the stem lie between two doubles there if its place does. -/
theorem within_orderedDouble (stem behind : Bytes) (low x high : Double) :
    Partition.within (stem ++ Key.orderedDouble low) (stem ++ Key.orderedDouble high)
      (stem ++ (Key.orderedDouble x ++ behind)) = true ↔
        low.orderKey ≤ x.orderKey ∧ x.orderKey < high.orderKey := by
  have hlength (d e : Double) : (Key.orderedDouble d).length = (Key.orderedDouble e).length := by
    rw [Key.length_orderedDouble, Key.length_orderedDouble]
  rw [Partition.within_append (hlength ..) (hlength ..), Key.compare_orderedDouble,
    Key.compare_orderedDouble, Bool.and_eq_true, Nat.isLE_compare, Ordering.isLT_iff_eq_lt,
    Nat.compare_eq_lt]

/-- Under a hint on a leading column of doubles the part of the index is read that holds the entries
whose values meet the hint and are not skipped. -/
theorem exists_readIndex_double (hopens : scope.Opens part p)
    (hcolumns : layout.index.columns = column :: others) (hty : column.ty = .double)
    (hnumbers : ∀ value ∈ hint.scan.values, value.double?.isSome = true) :
    ∃ keep : Bytes → Bool,
      scope.readIndex part layout [hint] =
        .ok ((p.scan (Key.indexStem part layout.index.id)).filter fun entry => keep entry.1) ∧
      ∀ value raw behind, IndexLayout.encodeValue column value = .ok raw →
        hint.MetBy (IndexLayout.keptValue column value) →
          (keep (Key.indexStem part layout.index.id ++ (raw ++ behind)) = true ↔
            ¬ hint.skips (IndexLayout.keptValue column value) = true) := by
  obtain ⟨name, scan⟩ := hint
  cases scan with
  | equal expected =>
    obtain ⟨d, hd⟩ := Option.isSome_iff_exists.1 (hnumbers expected List.mem_cons_self)
    have hlead : IndexLayout.encodeLeading layout.index.columns [expected] =
        .ok (Key.orderedDouble d) := by
      rw [hcolumns, IndexLayout.encodeLeading, IndexLayout.encodeValue_of_double? hty hd,
        IndexLayout.encodeLeading_nil]
      exact congrArg Except.ok (List.append_nil _)
    have hlength : (equalValues [⟨name, .equal expected⟩]).length ≤ layout.index.columns.length := by
      rw [hcolumns]
      exact Nat.succ_le_succ (Nat.zero_le _)
    refine ⟨_, readIndex_of_equal hopens rfl hlength hlead, fun value raw behind hraw hmet => ?_⟩
    rcases IndexLayout.encodeValue_double hty hraw with hnull | ⟨x, hx, rfl⟩
    · rw [hnull] at hmet
      cases hmet
    · rw [hx] at hmet ⊢
      have hcompare : x.compare? d = some .eq := (Value.compare?_of_double? hd).symm.trans hmet
      rw [isPrefixOf_orderedDouble, skips_equal rfl hd]
      exact Double.eq_iff_of_compare?_eq hcompare
  | range low high =>
    obtain ⟨l, hl⟩ := Option.isSome_iff_exists.1 (hnumbers low List.mem_cons_self)
    obtain ⟨h, hh⟩ := Option.isSome_iff_exists.1
      (hnumbers high (List.mem_cons_of_mem _ List.mem_cons_self))
    have hcolumn : layout.index.columns[0]? = some column := by
      rw [hcolumns]
      rfl
    have hindex : scope.readIndex part layout [⟨name, .range low high⟩] = _ :=
      readIndex_of_range hopens rfl hcolumn (IndexLayout.encodeLeading_nil _)
        (IndexLayout.encodeValue_of_double? hty hl) (IndexLayout.encodeValue_of_double? hty hh)
    have hfixed : ¬ column.ty.isVarLen = true := by
      rw [hty]
      decide
    simp only [rangeStop, if_neg hfixed, List.append_nil] at hindex
    refine ⟨_, hindex, fun value raw behind hraw hmet => ?_⟩
    rcases IndexLayout.encodeValue_double hty hraw with hnull | ⟨x, hx, rfl⟩
    · rw [hnull] at hmet
      rcases hmet with ⟨heq | hgt, -⟩
      · cases heq
      · cases hgt
    · rw [hx] at hmet ⊢
      obtain ⟨hge, hlt⟩ := hmet
      rw [Value.compare?_of_double? hl] at hge
      rw [Value.compare?_of_double? hh] at hlt
      rw [within_orderedDouble, skips_range rfl hl,
        and_iff_left (Double.orderKey_lt_of_compare?_lt hlt)]
      exact Double.orderKey_le_iff_of_compare? hge

/-- Hints on doubles agree with filters but for zeros. Where the keys of an index, whose first column
is one of doubles, are those of entries, a scan under a hint with numbers on this column finds, in the
same order, what the filter of the hint leaves of the whole index, except for the entries that the
hint skips: a hint that asks for a zero skips the other one, and a range from positive zero on skips
negative zero. -/
theorem scan_hinted_double (hopens : scope.Opens part p) (hentries : layout.OnlyEntries part p)
    (hcolumns : layout.index.columns = column :: others) (hty : column.ty = .double)
    (hname : column.name ∉ resultColumns layout.isEdge []) (hhint : hint.column = column.name)
    (hnumbers : ∀ value ∈ hint.scan.values, value.double?.isSome = true) :
    ∃ all, scope.scan part layout [] = .ok all ∧
      (∀ hit, hit ∈ all ↔ hit.IsOf layout part p) ∧
      scope.scan part layout [hint] = .ok (all.filter fun hit =>
        hint.filter.holds (hit.filterValue? (.indexKey layout)) &&
          !hint.skips (hit.indexValues.headD .null)) := by
  obtain ⟨all, hall, -, hmem⟩ := exists_scan_nil hopens hentries
  obtain ⟨keep, hindex, hkeep⟩ := exists_readIndex_double hopens hcolumns hty hnumbers
  refine ⟨all, hall, hmem, ?_⟩
  rw [scan_eq_filter hopens hall hindex]
  refine congrArg Except.ok (List.filter_congr fun hit hhit => ?_)
  have hof := (hmem hit).1 hhit
  obtain ⟨value, rest, raw, behind, hvalues, hraw, hkey⟩ := hentries.exists_first hcolumns hof
  have hseen : (hit.filterValue? (.indexKey layout) hint.column).getD .null =
      IndexLayout.keptValue column value := by
    rw [hhint, hof.filterValue?_first hcolumns hname, hvalues]
    rfl
  rw [Bool.eq_iff_iff, Bool.and_eq_true, Bool.and_eq_true, holds_filter, hseen, hvalues,
    allAdmit_iff, Bool.not_eq_true', ← Bool.not_eq_true, hkey]
  have hmeets : AllMetBy [hint] (IndexLayout.keptValue column value :: rest) ↔
      hint.MetBy (IndexLayout.keptValue column value) := by
    simp [AllMetBy]
  rw [hmeets, and_comm]
  exact and_congr_right fun hmet => hkeep value raw behind hraw hmet

/-- An index of weights. -/
def weights : IndexLayout where
  index := {
    id := 7, name := "weights", owner := .tag 3
    columns := [{ name := "weight", ty := .double }] }
  vidLen := 2

/-- The key of `x`, which weighs negative zero. -/
def weightKeyX : Bytes :=
  [3, 0, 0, 1, 128, 0, 0, 7, 127, 255, 255, 255, 255, 255, 255, 255, 120, 0]

/-- The key of `y`, which weighs positive zero. -/
def weightKeyY : Bytes := [3, 0, 0, 1, 128, 0, 0, 7, 128, 0, 0, 0, 0, 0, 0, 0, 121, 0]

/-- A partition with these keys. -/
def weightPartition : Partition := (∅ : Partition).put [(weightKeyX, []), (weightKeyY, [])]

/-- The partition, looked at under the tag of the index. -/
def weightScope : QueryScope where
  node := {
    store := { parts := (∅ : Std.ExtTreeMap Address Partition).insert ⟨1, 1⟩ weightPartition }
    placement := .table [] }
  space := 1
  vidLen := 2
  schemaId := 3

/-- The partition is there. -/
theorem weightScope_opens : weightScope.Opens 1 weightPartition :=
  ⟨List.not_mem_nil, Std.ExtTreeMap.getElem?_insert_self⟩

/-- The keys in it are those of entries. -/
theorem weights_onlyEntries : weights.OnlyEntries 1 weightPartition := by
  intro key hkey _
  have hcases : key = weightKeyX ∨ key = weightKeyY := by
    simpa [weightPartition, Partition.mem_put] using hkey
  rcases hcases with rfl | rfl
  · exact ⟨[.float .negativeZero], .vertex "x", by decide +kernel, by simp⟩
  · exact ⟨[.float .positiveZero], .vertex "y", by decide +kernel, by simp⟩

/-- Of weights from 0 to below 1 a hint finds that of positive zero, and skips negative zero. -/
theorem scan_hinted_double_weights :
    let hint : ColumnHint := ⟨"weight", .range (.int 0) (.int 1)⟩
    let x : Candidate :=
      { key := weightKeyX, entity := .vertex "x", indexValues := [.float .negativeZero] }
    let y : Candidate :=
      { key := weightKeyY, entity := .vertex "y", indexValues := [.float .positiveZero] }
    weightScope.Opens 1 weightPartition ∧ weights.OnlyEntries 1 weightPartition ∧
      weights.index.columns = [{ name := "weight", ty := .double }] ∧
      "weight" ∉ resultColumns weights.isEdge [] ∧
      (∀ value ∈ hint.scan.values, value.double?.isSome = true) ∧
      ∃ all hits, weightScope.scan 1 weights [] = .ok all ∧
        weightScope.scan 1 weights [hint] = .ok hits ∧
        x ∈ all ∧ x ∉ hits ∧ y ∈ hits := by
  intro hint x y
  have hname : "weight" ∉ resultColumns weights.isEdge [] := by decide
  have hnumbers : ∀ value ∈ hint.scan.values, value.double?.isSome = true := by decide
  obtain ⟨all, hall, hmem, hhits⟩ :=
    scan_hinted_double weightScope_opens weights_onlyEntries rfl rfl hname rfl hnumbers
  have hx : x ∈ all := (hmem x).2
    ⟨Partition.mem_put.2 (.inl List.mem_cons_self), by decide, by decide +kernel, rfl⟩
  have hy : y ∈ all := (hmem y).2
    ⟨Partition.mem_put.2 (.inl (List.mem_cons_of_mem _ List.mem_cons_self)), by decide,
      by decide +kernel, rfl⟩
  refine ⟨weightScope_opens, weights_onlyEntries, rfl, hname, hnumbers, all, _, hall, hhits, hx,
    ?_, ?_⟩
  · rw [List.mem_filter]
    exact fun h => absurd h.2 (by decide +kernel)
  · exact List.mem_filter.2 ⟨hy, by decide +kernel⟩

/-- A hint that asks for positive zero does not find negative zero, which is equal to it as a number
and is found with the filter. -/
theorem scan_skips_negativeZero :
    let hint : ColumnHint := ⟨"weight", .equal (.float .positiveZero)⟩
    weightScope.Opens 1 weightPartition ∧ weights.OnlyEntries 1 weightPartition ∧
      ∃ all, weightScope.scan 1 weights [] = .ok all ∧
        weightScope.scan 1 weights [hint] ≠ .ok (all.filter fun hit =>
          hint.filter.holds (hit.filterValue? (.indexKey weights))) := by
  intro hint
  exact ⟨weightScope_opens, weights_onlyEntries,
    [{ key := weightKeyX, entity := .vertex "x", indexValues := [.float .negativeZero] },
      { key := weightKeyY, entity := .vertex "y", indexValues := [.float .positiveZero] }],
    by decide +kernel, by decide +kernel⟩

end QueryScope

end GraphStore
