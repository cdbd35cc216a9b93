import GraphStore.Proofs.Key.IndexKeys

/-!
# Index keys read back

An index key is read from both ends: the lengths of the strings stand at its end, and with them the
columns are cut off its front. Every column gives its value again, with null where the map of nulls
says so, and an integer of a double column as the double it was written as. Entries with the same
key in one index therefore have the same entity and the same values.
-/

namespace GraphStore

/-- A place in the total order fits in eight bytes. -/
theorem Double.orderKey_lt (d : Double) : d.orderKey < 256 ^ 8 := by
  have hbits := d.bits.toNat_lt
  rw [orderKey]
  split
  · omega
  · next hsign =>
    simp only [negative, decide_eq_true_eq] at hsign
    omega

namespace IndexLayout

variable {layout : IndexLayout} {part : PartId} {column : Column} {columns : List Column}
  {value : Value} {values : List Value} {entity : Entity} {key raw : Bytes} {encoded : Columns}
  {i : Nat}

/-- What a column's bytes say of a value: a column of doubles writes the double nearest to an
integer, every other column the value itself. -/
def keptValue (column : Column) : Value → Value
  | .int i => if column.ty = .double then .float (Double.ofInt i.toInt) else .int i
  | value => value

/-- A column keeps every value but an integer among doubles. -/
theorem keptValue_eq {column : Column} {value : Value}
    (h : ∀ i, value = .int i → column.ty ≠ .double) : keptValue column value = value := by
  cases value with
  | int i => exact if_neg (h i rfl)
  | _ => rfl

/-- What the bytes of the columns say of a row of values. -/
def keptValues (columns : List Column) (values : List Value) : List Value :=
  List.zipWith keptValue columns values

/-- An entry that its key can tell: the lengths of the strings fit in four bytes, the ids do not end
in padding, and an edge is of the index's type. -/
structure Recoverable (layout : IndexLayout) (values : List Value) (entity : Entity) : Prop where
  short : ∀ s, .str s ∈ values → (Utf8.ofString s).length < 2 ^ 32
  canonical : ∀ vid ∈ entity.vids, Canonical vid
  edgeType : ∀ e, entity = .edge e → layout.index.owner = .edge e.edgeType

/-! ### One column -/

/-- A double is found again in its bytes, whatever its pattern. -/
@[simp] theorem readOrderedDouble_orderedDouble (d : Double) :
    Key.readOrderedDouble (Key.orderedDouble d) = d := by
  rw [Key.readOrderedDouble, Key.orderedDouble, Bytes.toNat_bigEndian,
    Nat.mod_eq_of_lt d.orderKey_lt, Double.ofOrderKey_orderKey]

/-- The columns without a fixed width are those whose width depends on the value. -/
theorem isVarLen_eq_isNone (ty : ColumnType) : ty.isVarLen = (fixedWidth? ty).isNone := by
  cases ty <;> rfl

/-- Null goes into nullable columns only, and leaves zero bytes. -/
theorem encodeValue_null : encodeValue column .null = .ok raw ↔
    column.nullable = true ∧ List.replicate ((fixedWidth? column.ty).getD 0) 0 = raw := by
  rw [encodeValue]
  cases column.nullable <;> simp

/-- A column of fixed width writes as many bytes for every value. -/
theorem length_of_encodeValue {width : Nat} (h : encodeValue column value = .ok raw)
    (hwidth : fixedWidth? column.ty = some width) : raw.length = width := by
  cases value with
  | null =>
    obtain ⟨-, rfl⟩ := encodeValue_null.1 h
    rw [List.length_replicate, hwidth, Option.getD_some]
  | bool b =>
    cases hty : column.ty <;> rw [hty] at hwidth <;> simp only [encodeValue, hty] at h <;> cases h
    exact Option.some.inj hwidth
  | int i =>
    cases hty : column.ty <;> rw [hty] at hwidth <;> simp only [encodeValue, hty] at h <;> cases h
    all_goals exact (Bytes.length_bigEndian ..).trans (Option.some.inj hwidth)
  | float d =>
    cases hty : column.ty <;> rw [hty] at hwidth <;> simp only [encodeValue, hty] at h <;> cases h
    exact (Bytes.length_bigEndian ..).trans (Option.some.inj hwidth)
  | str s =>
    cases hty : column.ty <;> rw [hty] at hwidth <;> simp only [encodeValue, hty] at h <;> cases h
    cases hwidth

/-- A column without a fixed width writes the bytes of a string, and none for null. -/
theorem encodeValue_varLen (h : encodeValue column value = .ok raw)
    (hwidth : fixedWidth? column.ty = none) :
    value = .null ∧ raw = [] ∨ ∃ s, value = .str s ∧ raw = Utf8.ofString s := by
  have hty : column.ty = .string := by
    cases hty : column.ty <;> rw [hty] at hwidth <;> first | rfl | cases hwidth
  cases value with
  | null =>
    obtain ⟨-, rfl⟩ := encodeValue_null.1 h
    rw [hwidth]
    exact .inl ⟨rfl, rfl⟩
  | str s =>
    simp only [encodeValue, hty] at h
    exact .inr ⟨s, rfl, (Except.ok.inj h).symm⟩
  | bool b => simp only [encodeValue, hty] at h; cases h
  | int i => simp only [encodeValue, hty] at h; cases h
  | float d => simp only [encodeValue, hty] at h; cases h

/-- A value that is not null is read from its column's bytes. -/
theorem decodeValue_encodeValue (h : encodeValue column value = .ok raw)
    (hvalue : value ≠ .null) : decodeValue column.ty raw = keptValue column value := by
  cases value with
  | null => exact absurd rfl hvalue
  | bool b =>
    cases hty : column.ty <;> simp only [encodeValue, hty] at h <;> cases h
    cases b <;> rfl
  | int i =>
    cases hty : column.ty <;> simp only [encodeValue, hty] at h <;> cases h
    all_goals simp [decodeValue, keptValue, hty]
  | float d =>
    cases hty : column.ty <;> simp only [encodeValue, hty] at h <;> cases h
    simp [decodeValue, keptValue]
  | str s =>
    cases hty : column.ty <;> simp only [encodeValue, hty] at h <;> cases h
    simp [decodeValue, keptValue]

/-! ### The map of nulls -/

/-- The map of nulls from place `i` on has a bit for each null. -/
theorem nulls_of_encodeColumns (h : encodeColumns i columns values = .ok encoded)
    (hlength : values.length = columns.length) :
    ∃ bits, encoded.nulls = 2 ^ i * bits ∧ ∀ k, bits.testBit k = values[k]?.any (·.isNull) := by
  induction columns generalizing i values encoded with
  | nil =>
    rw [List.length_eq_zero_iff.1 hlength] at h ⊢
    cases h
    exact ⟨0, rfl, by simp⟩
  | cons column columns ih =>
    cases values with
    | nil => cases hlength
    | cons value values =>
      obtain ⟨bytes, rest, -, -, hrest, rfl⟩ := encodeColumns_cons.1 h
      obtain ⟨bits, hbits, htest⟩ := ih hrest (Nat.succ.inj hlength)
      refine ⟨(if value.isNull then 1 else 0) + 2 * bits, ?_, fun k => ?_⟩
      · simp only [hbits, Nat.pow_eq, pow_succ]
        split <;> ring
      · cases k with
        | zero => cases hnull : value.isNull <;> simp [Nat.testBit_zero, hnull]
        | succ k =>
          have hhalf : ((if value.isNull then 1 else 0) + 2 * bits) / 2 = bits := by
            split <;> omega
          rw [Nat.testBit_succ, hhalf, htest, List.getElem?_cons_succ]

/-- Without a nullable column there is no null. -/
theorem ne_null_of_encodeColumns (h : encodeColumns i columns values = .ok encoded)
    (hlength : values.length = columns.length) (hnone : columns.any (·.nullable) = false) :
    ∀ value ∈ values, value.isNull = false := by
  induction columns generalizing i values encoded with
  | nil =>
    rw [List.length_eq_zero_iff.1 hlength]
    nofun
  | cons column columns ih =>
    cases values with
    | nil => cases hlength
    | cons value values =>
      obtain ⟨bytes, rest, hbytes, -, hrest, rfl⟩ := encodeColumns_cons.1 h
      rw [List.any_cons, Bool.or_eq_false_iff] at hnone
      have hfirst : value.isNull = false := by
        cases value with
        | null =>
          rw [(encodeValue_null.1 hbytes).1] at hnone
          exact absurd hnone.1 Bool.noConfusion
        | _ => rfl
      intro other hother
      rcases List.mem_cons.1 hother with rfl | hother
      · exact hfirst
      · exact ih hrest (Nat.succ.inj hlength) hnone.2 other hother

/-- The map read from a key has the bits of the leading columns, whether or not the key keeps
one. -/
theorem testBit_nullMap (h : encodeColumns 0 layout.index.columns values = .ok encoded)
    (hlength : values.length = layout.index.columns.length) {k : Nat} (hk : k < nullableColumns) :
    (Bytes.toNat (Bytes.bigEndian layout.nullMapLength encoded.nulls)).testBit k =
      values[k]?.any (·.isNull) := by
  obtain ⟨bits, hbits, htest⟩ := nulls_of_encodeColumns h hlength
  rw [Bytes.toNat_bigEndian, ← htest, hbits, pow_zero, Nat.one_mul, nullMapLength]
  split
  · have hpow : 256 ^ 2 = 2 ^ nullableColumns := by decide
    rw [hpow, Nat.testBit_mod_two_pow, decide_eq_true hk, Bool.true_and]
  · next hnullable =>
    have hnone := ne_null_of_encodeColumns h hlength (Bool.eq_false_iff.2 hnullable)
    have hbit : bits.testBit k = false := by
      rw [htest]
      cases hvalue : values[k]? with
      | none => rfl
      | some value => exact hnone value (List.mem_of_getElem? hvalue)
    rw [hbit, pow_zero, Nat.mod_one, Nat.zero_testBit]

/-! ### All columns -/

/-- Lengths are read back as far as four bytes tell them. -/
theorem readLengths_flatMap_mod (lengths : List Nat) :
    readLengths lengths.length (lengths.flatMap (Bytes.bigEndian 4)) =
      lengths.map (· % 256 ^ 4) := by
  induction lengths with
  | nil => rfl
  | cons n lengths ih =>
    have hfour := Bytes.length_bigEndian 4 n
    rw [List.flatMap_cons, List.length_cons, readLengths, List.take_left' hfour,
      List.drop_left' hfour, Bytes.toNat_bigEndian, ih, List.map_cons]

/-- Lengths that fit in four bytes are read back. -/
theorem readLengths_flatMap {lengths : List Nat} (h : ∀ n ∈ lengths, n < 2 ^ 32) :
    readLengths lengths.length (lengths.flatMap (Bytes.bigEndian 4)) = lengths := by
  rw [readLengths_flatMap_mod]
  refine (List.map_congr_left fun n hn => ?_).trans (List.map_id _)
  exact Nat.mod_eq_of_lt (h n hn)

/-- Short strings leave lengths that fit in four bytes. -/
theorem lengths_lt_of_encodeColumns (h : encodeColumns i columns values = .ok encoded)
    (hlength : values.length = columns.length)
    (hshort : ∀ s, .str s ∈ values → (Utf8.ofString s).length < 2 ^ 32) :
    ∀ n ∈ encoded.lengths, n < 2 ^ 32 := by
  induction columns generalizing i values encoded with
  | nil =>
    rw [List.length_eq_zero_iff.1 hlength] at h
    cases h
    nofun
  | cons column columns ih =>
    cases values with
    | nil => cases hlength
    | cons value values =>
      obtain ⟨bytes, rest, hbytes, -, hrest, rfl⟩ := encodeColumns_cons.1 h
      have hothers := ih hrest (Nat.succ.inj hlength) fun s hs =>
        hshort s (List.mem_cons_of_mem _ hs)
      dsimp only
      split
      · next hvar =>
        have hwidth : fixedWidth? column.ty = none := by
          rw [of_decide_eq_true hvar, fixedWidth?]
        intro n hn
        rcases List.mem_cons.1 hn with rfl | hn
        · rcases encodeValue_varLen hbytes hwidth with ⟨-, rfl⟩ | ⟨s, rfl, rfl⟩
          · exact Nat.two_pow_pos 32
          · exact hshort s List.mem_cons_self
        · exact hothers n hn
      · exact hothers

/-- The bytes of the first column are cut off. -/
theorem splitColumns_append (h : encodeValue column value = .ok raw) (lengths : List Nat)
    (bytes : Bytes) :
    splitColumns (column :: columns) (if column.ty.isVarLen then raw.length :: lengths else lengths)
      (raw ++ bytes) =
        (splitColumns columns lengths bytes).map fun (raws, rest) => (raw :: raws, rest) := by
  have hcut {width : Nat} (hwidth : raw.length = width) :
      (if (raw ++ bytes).length < width then none
        else (splitColumns columns lengths ((raw ++ bytes).drop width)).map fun (raws, rest) =>
          ((raw ++ bytes).take width :: raws, rest)) =
        (splitColumns columns lengths bytes).map fun (raws, rest) => (raw :: raws, rest) := by
    subst hwidth
    rw [if_neg (by simp), List.drop_left, List.take_left]
  cases hwidth : fixedWidth? column.ty with
  | some width =>
    have hfixed : column.ty.isVarLen = false := by
      rw [isVarLen_eq_isNone, hwidth]
      rfl
    rw [hfixed]
    simp only [splitColumns, hwidth]
    exact hcut (length_of_encodeValue h hwidth)
  | none =>
    have hvar : column.ty.isVarLen = true := by
      rw [isVarLen_eq_isNone, hwidth]
      rfl
    rw [if_pos hvar]
    simp only [splitColumns, hwidth]
    exact hcut rfl

/-- The columns are cut off the front of what they were put before, and give their values again
under any map with a bit for each null of a leading column. -/
theorem splitColumns_encodeColumns (h : encodeColumns i columns values = .ok encoded)
    (hlength : values.length = columns.length) {map : Nat}
    (hmap : ∀ k, i + k < nullableColumns → map.testBit (i + k) = values[k]?.any (·.isNull))
    (rest : Bytes) :
    ∃ raws, splitColumns columns encoded.lengths (encoded.bytes ++ rest) = some (raws, rest) ∧
      decodeValues map i columns raws = keptValues columns values := by
  induction columns generalizing i values encoded with
  | nil =>
    rw [List.length_eq_zero_iff.1 hlength] at h ⊢
    cases h
    exact ⟨[], rfl, rfl⟩
  | cons column columns ih =>
    cases values with
    | nil => cases hlength
    | cons value values =>
      obtain ⟨bytes, others, hbytes, hplace, hothers, rfl⟩ := encodeColumns_cons.1 h
      have htail (k : Nat) (hk : i + 1 + k < nullableColumns) :
          map.testBit (i + 1 + k) = values[k]?.any (·.isNull) := by
        have hbit := hmap (k + 1) (by omega)
        rwa [List.getElem?_cons_succ, ← Nat.add_assoc, Nat.add_right_comm] at hbit
      obtain ⟨raws, hsplit, hdecode⟩ := ih hothers (Nat.succ.inj hlength) htail
      refine ⟨bytes :: raws, ?_, ?_⟩
      · rw [List.append_assoc, splitColumns_append hbytes, hsplit]
        rfl
      · have hbit (hi : i < nullableColumns) : map.testBit i = value.isNull := hmap 0 hi
        have hfirst : (if i < nullableColumns && map.testBit i then .null
            else decodeValue column.ty bytes) = keptValue column value := by
          by_cases hnull : value = .null
          · subst hnull
            rw [hbit (hplace rfl), decide_eq_true (hplace rfl)]
            rfl
          · have hclear : (decide (i < nullableColumns) && map.testBit i) = false := by
              have hfalse : value.isNull = false := by
                cases value <;> first | rfl | exact absurd rfl hnull
              by_cases hi : i < nullableColumns
              · rw [hbit hi, hfalse, Bool.and_false]
              · rw [decide_eq_false hi, Bool.false_and]
            rw [hclear]
            exact decodeValue_encodeValue hbytes hnull
        rw [decodeValues, hfirst, hdecode]
        rfl

/-! ### The whole key -/

/-- A key is cut where its parts meet: the lengths are counted from its end, and the columns take
what the lengths say. -/
theorem decodeKey_append {stem bytes map raw trailer : Bytes} {raws : List Bytes}
    (hkind : stem.head? = some Key.indexKind) (hstem : stem.length = stemLength)
    (hmap : map.length = layout.nullMapLength) (hraw : raw.length = layout.entityLength)
    (htrailer : trailer.length = layout.trailerLength)
    (hsplit : splitColumns layout.index.columns (readLengths layout.stringColumns trailer)
      (bytes ++ (map ++ raw ++ trailer)) = some (raws, map ++ raw ++ trailer)) :
    layout.decodeKey (stem ++ (bytes ++ (map ++ raw ++ trailer))) =
      .ok (decodeValues map.toNat 0 layout.index.columns raws, layout.decodeEntity raw) := by
  generalize hkey : stem ++ (bytes ++ (map ++ raw ++ trailer)) = key
  have hlength : key.length = stemLength + bytes.length + layout.nullMapLength +
      layout.entityLength + layout.trailerLength := by
    rw [← hkey]
    simp only [List.length_append, hstem, hmap, hraw, htrailer]
    omega
  have hlong : ¬ (key.length < stemLength + layout.nullMapLength + layout.entityLength +
      layout.trailerLength ∨ key.head? ≠ some Key.indexKind) := by
    rw [not_or, not_not]
    refine ⟨by omega, ?_⟩
    rw [← hkey, List.head?_append, hkind, Option.some_or]
  have hend : key.drop (key.length - layout.trailerLength) = trailer := by
    rw [← htrailer, ← hkey, ← List.append_assoc, ← List.append_assoc, List.length_append,
      Nat.add_sub_cancel, List.drop_left]
  have hdrop : key.drop stemLength = bytes ++ (map ++ raw ++ trailer) := by
    rw [← hkey, List.drop_left' hstem]
  have hrest : (map ++ raw ++ trailer).length =
      layout.nullMapLength + layout.entityLength + layout.trailerLength := by
    rw [List.length_append, List.length_append, hmap, hraw, htrailer]
  simp only [decodeKey]
  rw [if_neg hlong, hend, hdrop, hsplit]
  simp only [hrest, ne_eq, not_true_eq_false, if_false]
  rw [List.append_assoc, List.take_left' hmap, List.drop_left' hmap, List.take_left' hraw]

/-- Reading the key of a recoverable entry gives its values, with integers of double columns as
doubles, and its entity. -/
theorem decodeKey_of_encodeKey (hentry : Recoverable layout values entity)
    (h : layout.encodeKey part values entity = .ok key) :
    layout.decodeKey key = .ok (keptValues layout.index.columns values, entity) := by
  obtain ⟨encoded, raw, hparts⟩ := encodeKey_eq_ok h
  have hkey := hparts.key_eq
  have hkind : (Key.indexStem part layout.index.id).head? = some Key.indexKind := rfl
  have hlengths : readLengths layout.stringColumns
      (encoded.lengths.flatMap (Bytes.bigEndian 4)) = encoded.lengths := by
    rw [← hparts.length_lengths]
    exact readLengths_flatMap
      (lengths_lt_of_encodeColumns hparts.columns hparts.length_eq hentry.short)
  generalize hmap : Bytes.bigEndian layout.nullMapLength encoded.nulls = map at hkey
  have hwidth : map.length = layout.nullMapLength := by
    rw [← hmap, Bytes.length_bigEndian]
  have hbits (k : Nat) (hk : 0 + k < nullableColumns) :
      map.toNat.testBit (0 + k) = values[k]?.any (·.isNull) := by
    rw [Nat.zero_add] at hk ⊢
    rw [← hmap]
    exact testBit_nullMap hparts.columns hparts.length_eq hk
  obtain ⟨raws, hsplit, hvalues⟩ := splitColumns_encodeColumns hparts.columns hparts.length_eq
    hbits (map ++ raw ++ encoded.lengths.flatMap (Bytes.bigEndian 4))
  have hread := decodeKey_append hkind (length_indexStem ..) hwidth
    (length_encodeEntity hparts.entity) hparts.length_trailer (by rw [hlengths]; exact hsplit)
  rw [hkey, hvalues, decodeEntity_of_encodeEntity hentry.canonical hentry.edgeType hparts.entity]
    at hread
  exact hread

/-- Index keys round-trip: the key of a recoverable entry is read as its entity and its values, an
integer of a double column as the double it was written as. No other entity and no other values
have this key, in whichever partition. -/
theorem decodeKey_encodeKey (hentry : Recoverable layout values entity)
    (h : layout.encodeKey part values entity = .ok key) :
    layout.decodeKey key = .ok (keptValues layout.index.columns values, entity) ∧
      ∀ otherPart otherValues other, Recoverable layout otherValues other →
        layout.encodeKey otherPart otherValues other = .ok key →
          other = entity ∧
            keptValues layout.index.columns otherValues =
              keptValues layout.index.columns values := by
  have hread := decodeKey_of_encodeKey hentry h
  refine ⟨hread, fun otherPart otherValues other hother h' => ?_⟩
  have hsame := decodeKey_of_encodeKey hother h'
  rw [hread] at hsame
  obtain ⟨hvalues, hentity⟩ := Prod.mk.inj (Except.ok.inj hsame)
  exact ⟨hentity.symm, hvalues.symm⟩

/-- An index of edges with strings, doubles and a timestamp, some of them nullable. -/
def follows : IndexLayout where
  index := {
    id := 7, name := "follows", owner := .edge 5
    columns := [
      { name := "note", ty := .string, nullable := true },
      { name := "weight", ty := .double },
      { name := "drift", ty := .double },
      { name := "until", ty := .timestamp, nullable := true },
      { name := "label", ty := .string } ] }
  vidLen := 4

/-- An entry of it: nulls of two types, an integer among the doubles, and a NaN with a payload. -/
def followsValues : List Value :=
  [.null, .int 3, .float ⟨0xfff0000000000123⟩, .null, .str "añ"]

/-- An edge to the empty id. -/
def followsEdge : Entity := .edge { src := "ab", edgeType := 5, ranking := -2, dst := "" }

/-- The key of the entry. -/
def followsKey : Bytes :=
  [3, 0, 0, 1, 128, 0, 0, 7, 192, 8, 0, 0, 0, 0, 0, 0, 0, 15, 255, 255, 255, 255, 254, 220,
    0, 0, 0, 0, 0, 0, 0, 0, 97, 195, 177, 0, 9, 97, 98, 0, 0, 127, 255, 255, 255, 255, 255, 255, 254,
    0, 0, 0, 0, 0, 0, 0, 0, 0, 0, 0, 3]

/-- The entry is read from its key, with the integer as a double and the payload in place. -/
theorem decodeKey_encodeKey_follows :
    Recoverable follows followsValues followsEdge ∧
      follows.encodeKey 1 followsValues followsEdge = .ok followsKey ∧
      follows.decodeKey followsKey =
        .ok ([.null, .float ⟨0x4008000000000000⟩, .float ⟨0xfff0000000000123⟩, .null, .str "añ"],
          followsEdge) := by
  have hentry : Recoverable follows followsValues followsEdge := by
    refine ⟨fun s hs => ?_, by decide, ?_⟩
    · simp only [followsValues, List.mem_cons, Value.str.injEq, reduceCtorEq, false_or,
        List.not_mem_nil, or_false] at hs
      rw [hs]
      decide +kernel
    · intro e he
      cases he
      rfl
  have hkey : follows.encodeKey 1 followsValues followsEdge = .ok followsKey := by decide +kernel
  have hvalues : keptValues follows.index.columns followsValues =
      [.null, .float ⟨0x4008000000000000⟩, .float ⟨0xfff0000000000123⟩, .null, .str "añ"] := by
    decide +kernel
  refine ⟨hentry, hkey, ?_⟩
  rw [← hvalues]
  exact (decodeKey_encodeKey hentry hkey).1

end IndexLayout

end GraphStore
