import GraphStore.Proofs.Key.ValueOrder
import GraphStore.Proofs.Query.PlanRefinement
import GraphStore.Proofs.Query.Scan

/-!
# Hinted scans

A scan with hints reads the keys between one or two bounds only. Of an index whose keys can be read
it still finds every entry whose values meet the hints, for the bytes of a column's values are in the
order of the values, and it finds no others, for each hit is checked by its values. Columns of
doubles are left aside here: their two zeros are equal as values and differ in their bytes.
-/

namespace GraphStore

namespace ColumnHint

/-- Whether a value is at least a lower bound and below an upper one. -/
def InRange (low high value : Value) : Prop :=
  (value.compare? low = some .eq ∨ value.compare? low = some .gt) ∧
    value.compare? high = some .lt

/-- Whether a value is what a hint asks for. -/
def MetBy (hint : ColumnHint) (value : Value) : Prop :=
  match hint.scan with
  | .equal expected => value.compare? expected = some .eq
  | .range low high => InRange low high value

/-- Whether each hint is met in the column of its place. -/
def AllMetBy (hints : List ColumnHint) (values : List Value) : Prop :=
  ∀ pair ∈ hints.zip values, pair.1.MetBy pair.2

/-- Whether the values of a hint can be written in a column. -/
def WritableIn (hint : ColumnHint) (column : Column) : Prop :=
  match hint.scan with
  | .equal value => ∃ raw, IndexLayout.encodeValue column value = .ok raw
  | .range low high =>
    (∃ raw, IndexLayout.encodeValue column low = .ok raw) ∧
      ∃ raw, IndexLayout.encodeValue column high = .ok raw

variable {hint : ColumnHint} {hints : List ColumnHint} {value : Value} {values : List Value}

/-- A hint admits the values that meet it. -/
theorem admits_iff : hint.admits value = true ↔ hint.MetBy value := by
  unfold admits MetBy
  cases hint.scan with
  | equal expected => simp
  | range low high =>
    simp only [InRange, Bool.and_eq_true, decide_eq_true_eq]
    refine and_congr_left fun _ => ?_
    cases value.compare? low with
    | none => simp
    | some ordering => cases ordering <;> simp

/-- Hints admit the values that meet all of them. -/
theorem allAdmit_iff : allAdmit hints values = true ↔ AllMetBy hints values := by
  rw [allAdmit, List.all_eq_true]
  exact forall₂_congr fun _ _ => admits_iff

end ColumnHint

namespace Partition

/-- Between two bounds of one width behind a stem are the keys with a part between them there. -/
theorem within_append {stem low high raw : Bytes} (hlow : low.length = raw.length)
    (hhigh : raw.length = high.length) (behind : Bytes) :
    within (stem ++ low) (stem ++ high) (stem ++ (raw ++ behind)) =
      ((compare low raw).isLE && (compare raw high).isLT) := by
  have hfirst := Bytes.compare_append hlow [] behind
  have hsecond := Bytes.compare_append hhigh behind []
  rw [List.append_nil] at hfirst hsecond
  rw [within, Bytes.compare_append_left, Bytes.compare_append_left, hfirst, hsecond]
  cases compare low raw <;> cases compare raw high <;> cases behind <;> rfl

end Partition

namespace IndexLayout

open ColumnHint

variable {layout : IndexLayout} {part : PartId} {column : Column} {columns : List Column}
  {hints : List ColumnHint} {value low high : Value} {values : List Value} {entity : Entity}
  {key lead lowRaw highRaw raw : Bytes} {encoded : Columns} {i : Nat}

/-- Values in a range have their bytes between its start and its stop. -/
theorem within_rangeStop (hty : column.ty ≠ .double) (hraw : encodeValue column value = .ok raw)
    (hlow : encodeValue column low = .ok lowRaw) (hhigh : encodeValue column high = .ok highRaw)
    (hmet : InRange low high value) {stem : Bytes} (hstem : ∃ b ∈ stem, b ≠ 0xff)
    (behind : Bytes) :
    Partition.within (stem ++ lowRaw) (QueryScope.rangeStop column stem highRaw)
      (stem ++ (raw ++ behind)) = true := by
  have hstart : (compare lowRaw raw).isLE = true := by
    have hge : (compare raw lowRaw).isGE = true := by
      rcases hmet.1 with h | h <;> rw [compare_encodeValue hty hraw hlow h] <;> rfl
    rwa [Std.OrientedCmp.isGE_iff_isLE] at hge
  have hstop : compare raw highRaw = .lt := compare_encodeValue hty hraw hhigh hmet.2
  unfold QueryScope.rangeStop
  split
  · -- Strings are read up to the end of the stem.
    have hend := (Key.within_upperBound_iff hstem (stem ++ (raw ++ behind))).2
      (List.prefix_append ..)
    refine Bool.and_eq_true_iff.2 ⟨?_, (Bool.and_eq_true_iff.1 hend).2⟩
    rw [Bytes.compare_append_left]
    exact Bytes.isLE_append hstart behind
  · next hfixed =>
    obtain ⟨width, hwidth⟩ : ∃ width, fixedWidth? column.ty = some width := by
      rw [← Option.isSome_iff_exists, ← Option.not_isNone, ← isVarLen_eq_isNone]
      simpa using hfixed
    have hraw := length_of_encodeValue hraw hwidth
    have hlow := length_of_encodeValue hlow hwidth
    have hhigh := length_of_encodeValue hhigh hwidth
    rw [Partition.within_append (hlow.trans hraw.symm) (hraw.trans hhigh.symm), hstart, hstop]
    rfl

/-- A range is the last hint. -/
theorem eq_nil_of_range {name : String}
    (hfit : IndexQuery.hintsFit columns (⟨name, .range low high⟩ :: hints) = true) :
    hints = [] := by
  cases columns with
  | nil => cases hfit
  | cons column columns =>
    obtain ⟨-, hnil | ⟨value, hvalue⟩, -⟩ := hintsFit_cons.1 hfit
    · exact hnil
    · cases hvalue

/-- Hints whose values can be written have bytes to look for, and their range, if they have one,
lies in the column behind those. -/
theorem exists_lead (hfit : IndexQuery.hintsFit columns hints = true)
    (hhints : ∀ pair ∈ hints.zip columns, pair.1.WritableIn pair.2) :
    ∃ lead, encodeLeading columns (equalValues hints) = .ok lead ∧
      (equalValues hints).length ≤ columns.length ∧
      ∀ low high, lastRange? hints = some (low, high) →
        ∃ column lowRaw highRaw, columns[(equalValues hints).length]? = some column ∧
          encodeValue column low = .ok lowRaw ∧ encodeValue column high = .ok highRaw := by
  induction hints generalizing columns with
  | nil => exact ⟨[], encodeLeading_nil columns, Nat.zero_le _, nofun⟩
  | cons hint hints ih =>
    cases columns with
    | nil => cases hfit
    | cons column columns =>
      obtain ⟨-, -, hothers⟩ := hintsFit_cons.1 hfit
      rw [List.zip_cons_cons, List.forall_mem_cons] at hhints
      obtain ⟨hfirst, hrest⟩ := hhints
      obtain ⟨name, scan⟩ := hint
      cases scan with
      | equal value =>
        obtain ⟨raw, hraw⟩ := hfirst
        obtain ⟨lead, hlead, hlength, hrange⟩ := ih hothers hrest
        refine ⟨raw ++ lead, ?_, Nat.succ_le_succ hlength, hrange⟩
        exact bind_eq_ok.2 ⟨raw, hraw, bind_eq_ok.2 ⟨lead, hlead, rfl⟩⟩
      | range low high =>
        obtain rfl := eq_nil_of_range hfit
        obtain ⟨⟨lowRaw, hlow⟩, highRaw, hhigh⟩ := hfirst
        refine ⟨[], rfl, Nat.zero_le _, fun other otherHigh hother => ?_⟩
        cases hother
        exact ⟨column, lowRaw, highRaw, rfl, hlow, hhigh⟩

/-- Where all hints are met, the columns begin with the leading values, and a value that meets the
range is behind those. -/
theorem bytes_of_allMetBy (hfit : IndexQuery.hintsFit columns hints = true)
    (hty : ∀ pair ∈ hints.zip columns, pair.2.ty ≠ .double)
    (h : encodeColumns i columns values = .ok encoded) (hlength : values.length = columns.length)
    (hmet : AllMetBy hints (keptValues columns values))
    (hlead : encodeLeading columns (equalValues hints) = .ok lead) :
    ∃ rest, encoded.bytes = lead ++ rest ∧ ∀ low high column,
      lastRange? hints = some (low, high) → columns[(equalValues hints).length]? = some column →
        column.ty ≠ .double ∧ ∃ value raw behind, encodeValue column value = .ok raw ∧
          rest = raw ++ behind ∧ InRange low high value := by
  induction hints generalizing columns values i encoded lead with
  | nil =>
    obtain rfl := Except.ok.inj ((encodeLeading_nil columns).symm.trans hlead)
    refine ⟨encoded.bytes, rfl, fun low high column hlast => ?_⟩
    cases hlast
  | cons hint hints ih =>
    cases columns with
    | nil => cases hfit
    | cons column columns =>
      cases values with
      | nil => cases hlength
      | cons value values =>
        obtain ⟨-, -, hfitRest⟩ := hintsFit_cons.1 hfit
        rw [List.zip_cons_cons, List.forall_mem_cons] at hty
        obtain ⟨hfirst, hrest⟩ := hty
        obtain ⟨raw, others, hraw, -, hothers, rfl⟩ := encodeColumns_cons.1 h
        rw [keptValues, List.zipWith_cons_cons, keptValue_eq fun _ _ => hfirst, AllMetBy,
          List.zip_cons_cons, List.forall_mem_cons] at hmet
        obtain ⟨hmetFirst, hmetRest⟩ := hmet
        obtain ⟨name, scan⟩ := hint
        cases scan with
        | equal expected =>
          obtain ⟨expectedRaw, hexpected, hlead⟩ := bind_eq_ok.1 hlead
          obtain ⟨leadRest, hleadRest, hlead⟩ := bind_eq_ok.1 hlead
          obtain rfl := Except.ok.inj hlead
          obtain ⟨rest, hbytes, hrange⟩ :=
            ih hfitRest hrest hothers (Nat.succ.inj hlength) hmetRest hleadRest
          have hsame : raw = expectedRaw := Std.LawfulEqCmp.eq_of_compare
            (compare_encodeValue hfirst hraw hexpected hmetFirst)
          refine ⟨rest, ?_, hrange⟩
          rw [hsame, List.append_assoc, ← hbytes]
        | range low high =>
          obtain rfl := eq_nil_of_range hfit
          obtain rfl := Except.ok.inj hlead
          refine ⟨raw ++ others.bytes, rfl, fun low' high' column' hrange hcolumn => ?_⟩
          cases hrange
          cases hcolumn
          exact ⟨hfirst, value, raw, others.bytes, hraw, rfl, hmetFirst⟩

/-- The same of the whole key, behind the stem of the index. -/
theorem key_of_allMetBy (hfit : IndexQuery.hintsFit layout.index.columns hints = true)
    (hty : ∀ pair ∈ hints.zip layout.index.columns, pair.2.ty ≠ .double)
    (h : layout.encodeKey part values entity = .ok key)
    (hmet : AllMetBy hints (keptValues layout.index.columns values))
    (hlead : encodeLeading layout.index.columns (equalValues hints) = .ok lead) :
    ∃ rest, key = Key.indexStem part layout.index.id ++ lead ++ rest ∧ ∀ low high column,
      lastRange? hints = some (low, high) →
        layout.index.columns[(equalValues hints).length]? = some column →
          column.ty ≠ .double ∧ ∃ value raw behind, encodeValue column value = .ok raw ∧
            rest = raw ++ behind ∧ InRange low high value := by
  obtain ⟨encoded, raw, hparts⟩ := encodeKey_eq_ok h
  obtain ⟨rest, hfront, hrange⟩ :=
    bytes_of_allMetBy hfit hty hparts.columns hparts.length_eq hmet hlead
  refine ⟨rest ++ (Bytes.bigEndian layout.nullMapLength encoded.nulls ++ raw ++
    encoded.lengths.flatMap (Bytes.bigEndian 4)), ?_, fun low high column hlast hcolumn => ?_⟩
  · rw [← hparts.key_eq, hfront]
    simp only [List.append_assoc]
  · obtain ⟨hcolumnTy, value, bytes, behind, hbytes, rfl, hvalue⟩ :=
      hrange low high column hlast hcolumn
    exact ⟨hcolumnTy, value, bytes, _, hbytes, List.append_assoc .., hvalue⟩

end IndexLayout

namespace QueryScope

open ColumnHint

variable {scope : QueryScope} {part : PartId} {p : Partition} {layout : IndexLayout}
  {hints : List ColumnHint}

/-- Hints whose values can be written read a part of the index that holds all entries whose values
meet them. -/
theorem exists_readIndex (hopens : scope.Opens part p)
    (hfit : IndexQuery.hintsFit layout.index.columns hints = true)
    (hhints : ∀ pair ∈ hints.zip layout.index.columns,
      pair.2.ty ≠ .double ∧ pair.1.WritableIn pair.2) :
    ∃ keep : Bytes → Bool,
      scope.readIndex part layout hints =
        .ok ((p.scan (Key.indexStem part layout.index.id)).filter fun entry => keep entry.1) ∧
      ∀ values entity key, layout.encodeKey part values entity = .ok key →
        AllMetBy hints (IndexLayout.keptValues layout.index.columns values) → keep key = true := by
  have hty (pair : ColumnHint × Column) (hpair : pair ∈ hints.zip layout.index.columns) :
      pair.2.ty ≠ .double := (hhints pair hpair).1
  obtain ⟨lead, hlead, hlength, hbounds⟩ :=
    IndexLayout.exists_lead hfit fun pair hpair => (hhints pair hpair).2
  cases hlast : lastRange? hints with
  | none =>
    refine ⟨_, readIndex_of_equal hopens hlast hlength hlead, fun values entity key h hmet => ?_⟩
    obtain ⟨rest, rfl, -⟩ := IndexLayout.key_of_allMetBy hfit hty h hmet hlead
    exact List.isPrefixOf_iff_prefix.2 (List.prefix_append ..)
  | some bounds =>
    obtain ⟨low, high⟩ := bounds
    obtain ⟨column, lowRaw, highRaw, hcolumn, hlow, hhigh⟩ := hbounds low high hlast
    refine ⟨_, readIndex_of_range hopens hlast hcolumn hlead hlow hhigh,
      fun values entity key h hmet => ?_⟩
    obtain ⟨rest, rfl, hrange⟩ := IndexLayout.key_of_allMetBy hfit hty h hmet hlead
    obtain ⟨hcolumnTy, value, raw, behind, hraw, rfl, hvalue⟩ :=
      hrange low high column hlast hcolumn
    have hbyte := IndexLayout.exists_ne_of_indexStem part layout.index.id lead
    exact IndexLayout.within_rangeStop hcolumnTy hraw hlow hhigh hvalue hbyte behind

/-- Hinted scans agree with the whole index. Where the keys of an index in a partition are those of
entries, a scan succeeds under hints on columns of booleans, integers, timestamps and strings whose
values can be written there. It finds, in key order, the hits of just those entries whose values meet
all hints, and every entry has its hit. -/
theorem scan_hinted (hopens : scope.Opens part p) (hentries : layout.OnlyEntries part p)
    (hfit : IndexQuery.hintsFit layout.index.columns hints = true)
    (hhints : ∀ pair ∈ hints.zip layout.index.columns,
      pair.2.ty ≠ .double ∧ pair.1.WritableIn pair.2) :
    ∃ hits, scope.scan part layout hints = .ok hits ∧
      hits.Pairwise (fun a b => compare a.key b.key = .lt) ∧
      (∀ hit, hit ∈ hits ↔ hit.IsOf layout part p ∧ AllMetBy hints hit.indexValues) ∧
      ∀ key ∈ p, Key.indexStem part layout.index.id <+: key →
        ∃ hit : Candidate, hit.IsOf layout part p ∧ hit.key = key := by
  obtain ⟨all, hall, hsorted, hmem⟩ := exists_scan_nil hopens hentries
  obtain ⟨keep, hindex, hkeep⟩ := exists_readIndex hopens hfit hhints
  refine ⟨_, scan_eq_filter hopens hall hindex, hsorted.sublist List.filter_sublist, fun hit => ?_,
    fun key hkey hstart => ?_⟩
  · rw [List.mem_filter, Bool.and_eq_true, allAdmit_iff, hmem]
    refine and_congr_right fun hhit => and_iff_right_of_imp fun hmet => ?_
    obtain ⟨values, entity, hencode, hvalues⟩ := hentries.exists_encodeKey hhit
    rw [hvalues] at hmet
    exact hkeep values entity hit.key hencode hmet
  · obtain ⟨⟨values, entity⟩, hfound⟩ := hentries.exists_decodeKey hkey hstart
    exact ⟨{ key, entity, indexValues := values }, ⟨hkey, hstart, hfound, rfl⟩, rfl⟩

/-- An index of numbers and labels. -/
def labels : IndexLayout where
  index := {
    id := 7, name := "labels", owner := .tag 3
    columns := [{ name := "kind", ty := .int8 }, { name := "label", ty := .string }] }
  vidLen := 2

/-- The key of `x`, which has the label `a` and the number 3. -/
def labelKeyX : Bytes :=
  [3, 0, 0, 1, 128, 0, 0, 7, 128, 0, 0, 0, 0, 0, 0, 3, 97, 120, 0, 0, 0, 0, 1]

/-- The key of `y`, which has the label `ab` and the number 3. -/
def labelKeyY : Bytes :=
  [3, 0, 0, 1, 128, 0, 0, 7, 128, 0, 0, 0, 0, 0, 0, 3, 97, 98, 121, 0, 0, 0, 0, 2]

/-- The labels of the number 3 from `a` to below `ab` are just `a`, though its key, in which an id
follows the label, comes behind that of `ab`. -/
theorem scan_hinted_labels :
    let p : Partition := (∅ : Partition).put [(labelKeyX, []), (labelKeyY, [])]
    let scope : QueryScope := {
      node := { store := { parts := (∅ : Std.ExtTreeMap Address Partition).insert ⟨1, 1⟩ p }
                placement := .table [] }
      space := 1, vidLen := 2, schemaId := 3 }
    let hints : List ColumnHint :=
      [⟨"kind", .equal (.int 3)⟩, ⟨"label", .range (.str "a") (.str "ab")⟩]
    scope.Opens 1 p ∧ labels.OnlyEntries 1 p ∧
      IndexQuery.hintsFit labels.index.columns hints = true ∧
      (∀ pair ∈ hints.zip labels.index.columns, pair.2.ty ≠ .double ∧ pair.1.WritableIn pair.2) ∧
      compare labelKeyY labelKeyX = .lt ∧
      ∃ hits, scope.scan 1 labels hints = .ok hits ∧
        { key := labelKeyX, entity := .vertex "x", indexValues := [.int 3, .str "a"] } ∈ hits ∧
        ∀ hit ∈ hits, hit.key ≠ labelKeyY := by
  intro p scope hints
  have hopens : scope.Opens 1 p := ⟨List.not_mem_nil, Std.ExtTreeMap.getElem?_insert_self⟩
  have hkeys (key : Bytes) (hkey : key ∈ p) : key = labelKeyX ∨ key = labelKeyY := by
    simpa [p, Partition.mem_put] using hkey
  have hreadX : labels.decodeKey labelKeyX = .ok ([.int 3, .str "a"], .vertex "x") := by
    decide +kernel
  have hreadY : labels.decodeKey labelKeyY = .ok ([.int 3, .str "ab"], .vertex "y") := by
    decide +kernel
  have hentries : labels.OnlyEntries 1 p := by
    intro key hkey _
    rcases hkeys key hkey with rfl | rfl
    · refine ⟨[.int 3, .str "a"], .vertex "x", by decide +kernel, ?_⟩
      simp only [List.mem_cons, reduceCtorEq, Value.str.injEq, List.not_mem_nil, or_false, false_or,
        forall_eq]
      decide
    · refine ⟨[.int 3, .str "ab"], .vertex "y", by decide +kernel, ?_⟩
      simp only [List.mem_cons, reduceCtorEq, Value.str.injEq, List.not_mem_nil, or_false, false_or,
        forall_eq]
      decide
  have hhints : ∀ pair ∈ hints.zip labels.index.columns,
      pair.2.ty ≠ .double ∧ pair.1.WritableIn pair.2 := by
    simp [hints, labels, WritableIn, IndexLayout.encodeValue]
  have hfit : IndexQuery.hintsFit labels.index.columns hints = true := by decide +kernel
  obtain ⟨hits, hscan, -, hmem, -⟩ :=
    scan_hinted hopens hentries hfit hhints
  refine ⟨hopens, hentries, hfit, hhints, by decide +kernel, hits, hscan,
    (hmem _).2 ⟨⟨?_, ?_, hreadX, rfl⟩, allAdmit_iff.1 (by decide +kernel)⟩, fun hit hhit hkey => ?_⟩
  · exact Partition.mem_put.2 (.inl List.mem_cons_self)
  · decide
  · obtain ⟨hof, hmet⟩ := (hmem hit).1 hhit
    have hread := hof.read
    rw [hkey, hreadY] at hread
    obtain ⟨hvalues, -⟩ := Prod.mk.inj (Except.ok.inj hread)
    rw [← hvalues, ← allAdmit_iff] at hmet
    exact absurd hmet (by decide +kernel)

end QueryScope

end GraphStore
