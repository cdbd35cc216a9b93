import GraphStore.Key.IndexEntries
import GraphStore.Proofs.Key.Rows

/-!
# What an index key says of its entity

The entity and the lengths behind it have a fixed width in the keys of one index, so the entity is
found by counting from the end of a key, whatever the column values are. An index key therefore
determines its entity up to the padding of ids, and reading it back finds the entity.
-/

namespace GraphStore

/-- The vertex ids that an entity is named by. -/
def Entity.vids : Entity → List VertexId
  | .vertex vid => [vid]
  | .edge e => [e.src, e.dst]

namespace IndexLayout

variable {layout : IndexLayout} {part : PartId} {columns : List Column}
  {values otherValues : List Value} {entity other : Entity} {key raw : Bytes} {encoded : Columns}
  {i : Nat} {vid : VertexId} {e : EdgeKey}

/-- Columns one after another are encoded one by one, with null in the leading ones only. -/
theorem encodeColumns_cons {column : Column} {value : Value} :
    encodeColumns i (column :: columns) (value :: values) = .ok encoded ↔
    ∃ bytes rest, encodeValue column value = .ok bytes ∧ (value = .null → i < nullableColumns) ∧
      encodeColumns (i + 1) columns values = .ok rest ∧
      encoded = {
        bytes := bytes ++ rest.bytes
        nulls := (if value.isNull then Nat.pow 2 i else 0) + rest.nulls
        lengths := if column.ty.isVarLen then bytes.length :: rest.lengths else rest.lengths } := by
  have hnull : value.isNull = true ↔ value = .null := by
    cases value <;> simp [Value.isNull]
  rw [encodeColumns, bind_eq_ok]
  constructor
  · rintro ⟨bytes, hbytes, h⟩
    dsimp only at h
    split at h
    · cases h
    · next hplace =>
      obtain ⟨rest, hrest, h⟩ := bind_eq_ok.1 h
      cases h
      refine ⟨bytes, rest, hbytes, fun heq => ?_, hrest, rfl⟩
      rw [hnull.2 heq] at hplace
      simpa using hplace
  · rintro ⟨bytes, rest, hbytes, hplace, hrest, rfl⟩
    refine ⟨bytes, hbytes, ?_⟩
    have hopen : ¬ (value.isNull && decide (nullableColumns ≤ i)) = true := by
      intro h
      rw [Bool.and_eq_true, decide_eq_true_eq, hnull] at h
      have := hplace h.1
      omega
    dsimp only
    rw [if_neg hopen]
    exact bind_eq_ok.2 ⟨rest, hrest, rfl⟩

/-- Whether an index column in some place takes a value: the value is of the column's type, or a
null that both the column and the place allow. -/
def Takes (i : Nat) (column : Column) (value : Value) : Prop :=
  (∃ raw, encodeValue column value = .ok raw) ∧ (value = .null → i < nullableColumns)

/-- Columns are encoded when each of them takes its value. -/
theorem exists_encodeColumns (hlength : values.length = columns.length) :
    (∃ encoded, encodeColumns i columns values = .ok encoded) ↔ ∀ (j : Nat) (column : Column)
      (value : Value), columns[j]? = some column → values[j]? = some value →
        Takes (i + j) column value := by
  induction columns generalizing i values with
  | nil =>
    rw [List.length_eq_zero_iff.1 hlength]
    refine ⟨fun _ j column value hcolumn => ?_, fun _ => ⟨_, rfl⟩⟩
    rw [List.getElem?_nil] at hcolumn
    cases hcolumn
  | cons column columns ih =>
    cases values with
    | nil => cases hlength
    | cons value values =>
      have htail := ih (i := i + 1) (Nat.succ.inj hlength)
      constructor
      · rintro ⟨encoded, h⟩ j other given hcolumn hvalue
        obtain ⟨bytes, rest, hbytes, hplace, hrest, -⟩ := encodeColumns_cons.1 h
        cases j with
        | zero =>
          cases hcolumn
          cases hvalue
          exact ⟨⟨bytes, hbytes⟩, hplace⟩
        | succ j =>
          have htakes := htail.1 ⟨rest, hrest⟩ j other given hcolumn hvalue
          rwa [Nat.succ_add_eq_add_succ] at htakes
      · intro hall
        obtain ⟨⟨bytes, hbytes⟩, hplace⟩ := hall 0 column value rfl rfl
        obtain ⟨rest, hrest⟩ := htail.2 fun j other given hcolumn hvalue => by
          rw [Nat.succ_add_eq_add_succ]
          exact hall (j + 1) other given hcolumn hvalue
        exact ⟨_, encodeColumns_cons.2 ⟨bytes, rest, hbytes, hplace, hrest, rfl⟩⟩

/-- An entity of the index's kind has a key when each column takes its value. -/
theorem exists_encodeKey (hlength : values.length = layout.index.columns.length)
    (hentity : layout.encodeEntity entity = .ok raw) :
    (∃ key, layout.encodeKey part values entity = .ok key) ↔ ∀ (j : Nat) (column : Column)
      (value : Value), layout.index.columns[j]? = some column → values[j]? = some value →
        Takes j column value := by
  have hcolumns := exists_encodeColumns (i := 0) hlength
  simp only [Nat.zero_add] at hcolumns
  rw [← hcolumns, encodeKey, if_neg (not_not.2 hlength)]
  constructor
  · rintro ⟨key, h⟩
    obtain ⟨encoded, hencoded, -⟩ := bind_eq_ok.1 h
    exact ⟨encoded, hencoded⟩
  · rintro ⟨encoded, hencoded⟩
    exact ⟨_, bind_eq_ok.2 ⟨encoded, hencoded, bind_eq_ok.2 ⟨raw, hentity, rfl⟩⟩⟩

/-- Every string column leaves its length. -/
theorem length_lengths (h : encodeColumns i columns values = .ok encoded)
    (hlength : values.length = columns.length) :
    encoded.lengths.length = columns.countP (·.ty.isVarLen) := by
  induction columns generalizing i values encoded with
  | nil =>
    rw [List.length_eq_zero_iff.1 hlength] at h
    cases h
    rfl
  | cons column columns ih =>
    cases values with
    | nil => cases hlength
    | cons value values =>
      obtain ⟨bytes, rest, -, -, hrest, rfl⟩ := encodeColumns_cons.1 h
      have hcount := ih hrest (Nat.succ.inj hlength)
      rw [List.countP_cons]
      by_cases hvar : column.ty.isVarLen = true
      · rw [if_pos hvar, if_pos hvar, List.length_cons, hcount]
      · rw [if_neg hvar, if_neg hvar, hcount, Nat.add_zero]

/-- Four-byte numbers take four bytes each. -/
theorem length_flatMap_bigEndian (lengths : List Nat) :
    (lengths.flatMap (Bytes.bigEndian 4)).length = lengths.length * 4 := by
  induction lengths with
  | nil => rfl
  | cons length lengths ih =>
    rw [List.flatMap_cons, List.length_append, Bytes.length_bigEndian, ih, List.length_cons]
    omega

/-- A vertex in an index over a tag is its padded id. -/
theorem encodeEntity_vertex : layout.encodeEntity (.vertex vid) = .ok raw ↔
    layout.isEdge = false ∧ Key.padVid layout.vidLen vid = .ok raw := by
  cases hedge : layout.isEdge <;> simp [encodeEntity, hedge]

/-- An edge in an index over an edge type is made of its padded ends and its ranking. -/
theorem encodeEntity_edge : layout.encodeEntity (.edge e) = .ok raw ↔
    layout.isEdge = true ∧ ∃ src dst, Key.padVid layout.vidLen e.src = .ok src ∧
      Key.padVid layout.vidLen e.dst = .ok dst ∧ src ++ Key.ordered64 e.ranking ++ dst = raw := by
  cases hedge : layout.isEdge with
  | false => simp [encodeEntity, hedge]
  | true =>
    simp only [encodeEntity, hedge, true_and]
    rw [bind_eq_ok]
    constructor
    · rintro ⟨src, hsrc, h⟩
      obtain ⟨dst, hdst, h⟩ := bind_eq_ok.1 h
      exact ⟨src, dst, hsrc, hdst, Except.ok.inj h⟩
    · rintro ⟨src, dst, hsrc, hdst, rfl⟩
      exact ⟨src, hsrc, bind_eq_ok.2 ⟨dst, hdst, rfl⟩⟩

/-- Equal bytes belong to edges with the same padded ends and ranking. -/
theorem encodeEntity_edge_inj {f : EdgeKey} (h : layout.encodeEntity (.edge e) = .ok raw)
    (h' : layout.encodeEntity (.edge f) = .ok raw) :
    Key.padVid layout.vidLen e.src = Key.padVid layout.vidLen f.src ∧
      Key.padVid layout.vidLen e.dst = Key.padVid layout.vidLen f.dst ∧ e.ranking = f.ranking := by
  obtain ⟨-, src, dst, hsrc, hdst, rfl⟩ := encodeEntity_edge.1 h
  obtain ⟨-, src', dst', hsrc', hdst', heq⟩ := encodeEntity_edge.1 h'
  obtain ⟨heq, hdsts⟩ := List.append_inj' heq
    ((Key.length_of_padVid hdst').trans (Key.length_of_padVid hdst).symm)
  obtain ⟨hsrcs, hrankings⟩ := List.append_inj' heq (by simp)
  rw [hsrc, hsrc', hdst, hdst', hsrcs, hdsts]
  exact ⟨rfl, rfl, (Key.ordered64_injective hrankings).symm⟩

/-- The bytes of an entity have the width that the index gives them. -/
theorem length_encodeEntity (h : layout.encodeEntity entity = .ok raw) :
    raw.length = layout.entityLength := by
  cases entity with
  | vertex vid =>
    obtain ⟨hedge, hpad⟩ := encodeEntity_vertex.1 h
    rw [entityLength, hedge]
    exact Key.length_of_padVid hpad
  | edge e =>
    obtain ⟨hedge, src, dst, hsrc, hdst, rfl⟩ := encodeEntity_edge.1 h
    rw [entityLength, if_pos hedge]
    simp only [List.length_append, Key.length_of_padVid hsrc, Key.length_of_padVid hdst,
      Key.length_ordered64]
    omega

/-- The parts of an index key: the stem, the columns, the map of nulls, the entity and the string
lengths. -/
structure Parts (layout : IndexLayout) (part : PartId) (values : List Value) (entity : Entity)
    (encoded : Columns) (raw key : Bytes) : Prop where
  length_eq : values.length = layout.index.columns.length
  columns : encodeColumns 0 layout.index.columns values = .ok encoded
  entity : layout.encodeEntity entity = .ok raw
  key_eq : Key.indexStem part layout.index.id ++ (encoded.bytes ++
    (Bytes.bigEndian layout.nullMapLength encoded.nulls ++ raw ++
      encoded.lengths.flatMap (Bytes.bigEndian 4))) = key

/-- An index key has its parts. -/
theorem encodeKey_eq_ok (h : layout.encodeKey part values entity = .ok key) :
    ∃ encoded raw, layout.Parts part values entity encoded raw key := by
  unfold encodeKey at h
  split at h
  · cases h
  · next hlength =>
    obtain ⟨encoded, hencoded, h⟩ := bind_eq_ok.1 h
    obtain ⟨raw, hraw, h⟩ := bind_eq_ok.1 h
    refine ⟨encoded, raw, not_not.1 hlength, hencoded, hraw, ?_⟩
    rw [← Except.ok.inj h]
    simp only [List.append_assoc]

namespace Parts

/-- There is a length for each string column. -/
theorem length_lengths (h : layout.Parts part values entity encoded raw key) :
    encoded.lengths.length = layout.stringColumns :=
  IndexLayout.length_lengths h.columns h.length_eq

/-- The string lengths have the width that the index gives them. -/
theorem length_trailer (h : layout.Parts part values entity encoded raw key) :
    (encoded.lengths.flatMap (Bytes.bigEndian 4)).length = layout.trailerLength := by
  rw [length_flatMap_bigEndian, h.length_lengths, trailerLength]

end Parts

/-- The stem of an index has a fixed width. -/
theorem length_indexStem (part : PartId) (index : IndexId) :
    (Key.indexStem part index).length = stemLength := by
  simp [Key.indexStem, stemLength]

/-- What begins with the stem of an index has an upper bound. -/
theorem exists_ne_of_indexStem (part : PartId) (index : IndexId) (rest : Bytes) :
    ∃ b ∈ Key.indexStem part index ++ rest, b ≠ 0xff :=
  ⟨Key.indexKind, by simp [Key.indexStem, Key.header], by decide⟩

/-- The bytes of the entity in a key, counted from its end. -/
def entityBytes (layout : IndexLayout) (key : Bytes) : Bytes :=
  (key.drop (key.length - (layout.entityLength + layout.trailerLength))).take layout.entityLength

/-- The bytes counted from the end are those between what comes before and behind. -/
theorem entityBytes_append {front raw trailer : Bytes} (hraw : raw.length = layout.entityLength)
    (htrailer : trailer.length = layout.trailerLength) :
    layout.entityBytes (front ++ raw ++ trailer) = raw := by
  rw [entityBytes, List.append_assoc, ← hraw, ← htrailer, List.length_append, List.length_append,
    Nat.add_sub_cancel, List.drop_left, List.take_left]

/-- The entity is found in the key. -/
theorem encodeEntity_of_encodeKey (h : layout.encodeKey part values entity = .ok key) :
    layout.encodeEntity entity = .ok (layout.entityBytes key) := by
  obtain ⟨encoded, raw, hparts⟩ := encodeKey_eq_ok h
  rw [← hparts.key_eq, ← List.append_assoc, ← List.append_assoc, ← List.append_assoc,
    entityBytes_append (length_encodeEntity hparts.entity) hparts.length_trailer, hparts.entity]

/-- Entities with the same key in an index have the same bytes. -/
theorem encodeEntity_inj (h : layout.encodeKey part values entity = .ok key)
    (h' : layout.encodeKey part otherValues other = .ok key) :
    layout.encodeEntity entity = layout.encodeEntity other := by
  rw [encodeEntity_of_encodeKey h, encodeEntity_of_encodeKey h']

/-- An index key begins with the stem of its index. -/
theorem indexStem_prefix (h : layout.encodeKey part values entity = .ok key) :
    Key.indexStem part layout.index.id <+: key := by
  obtain ⟨encoded, raw, hparts⟩ := encodeKey_eq_ok h
  rw [← hparts.key_eq]
  exact List.prefix_append ..

/-- A key that begins with the stem of an index is that of an index entry. -/
theorem head?_of_indexStem_prefix {index : IndexId} (h : Key.indexStem part index <+: key) :
    key.head? = some Key.indexKind := by
  obtain ⟨rest, rfl⟩ := h
  rfl

/-- A key belongs to one index. -/
theorem indexStem_inj {index otherIndex : IndexId} (h : Key.indexStem part index <+: key)
    (h' : Key.indexStem part otherIndex <+: key) : index = otherIndex := by
  have hwidth : (Key.indexStem part index).length = (Key.indexStem part otherIndex).length := by
    rw [length_indexStem, length_indexStem]
  have hsame := List.prefix_of_prefix_length_le h h' hwidth.le
  have heq := hsame.eq_of_length hwidth
  exact Key.ordered32_injective (List.append_cancel_left heq)

/-- Columns are cut off the front. -/
theorem suffix_of_splitColumns {columns : List Column} {lengths : List Nat} {bytes rest : Bytes}
    {raws : List Bytes} (h : splitColumns columns lengths bytes = some (raws, rest)) :
    rest <:+ bytes := by
  induction columns generalizing lengths bytes raws with
  | nil =>
    cases h
    exact List.suffix_refl _
  | cons column columns ih =>
    unfold splitColumns at h
    split at h
    · split at h
      · cases h
      · obtain ⟨⟨others, left⟩, hsplit, hpair⟩ := Option.map_eq_some_iff.1 h
        cases hpair
        exact (ih hsplit).trans (List.drop_suffix ..)
    · split at h
      · cases h
      · obtain ⟨⟨others, left⟩, hsplit, hpair⟩ := Option.map_eq_some_iff.1 h
        cases hpair
        exact (ih hsplit).trans (List.drop_suffix ..)
    · cases h

/-- Reading a key finds the entity in the bytes counted from its end. -/
theorem entity_of_decodeKey (h : layout.decodeKey key = .ok (values, entity)) :
    entity = layout.decodeEntity (layout.entityBytes key) := by
  unfold decodeKey at h
  dsimp only at h
  split at h
  · cases h
  · split at h
    · cases h
    · next raws rest hsplit =>
      split at h
      · cases h
      · next hlength =>
        cases h
        obtain ⟨front, hfront⟩ := (suffix_of_splitColumns hsplit).trans (List.drop_suffix ..)
        have hentity : (rest.drop layout.nullMapLength).take layout.entityLength =
            layout.entityBytes key := by
          rw [not_not] at hlength
          have hcut : key.length - (layout.entityLength + layout.trailerLength) =
              front.length + layout.nullMapLength := by
            rw [← hfront, List.length_append]
            omega
          rw [entityBytes, hcut, ← hfront, ← List.drop_drop, List.drop_left]
        rw [hentity]

/-- An entity with canonical ids is read from its bytes, if an edge has the index's type. -/
theorem decodeEntity_of_encodeEntity (hcanonical : ∀ vid ∈ entity.vids, Canonical vid)
    (hedgeType : ∀ e, entity = .edge e → layout.index.owner = .edge e.edgeType)
    (h : layout.encodeEntity entity = .ok raw) : layout.decodeEntity raw = entity := by
  cases entity with
  | vertex vid =>
    obtain ⟨hedge, hpad⟩ := encodeEntity_vertex.1 h
    have hvid : Canonical vid := hcanonical vid (List.mem_singleton.2 rfl)
    cases howner : layout.index.owner with
    | tag id => simp only [decodeEntity, howner, Key.unpadVid_of_padVid hvid hpad]
    | edge edgeType =>
      rw [isEdge, howner] at hedge
      cases hedge
  | edge e =>
    obtain ⟨-, src, dst, hsrc, hdst, rfl⟩ := encodeEntity_edge.1 h
    have hwidth := Key.length_of_padVid hsrc
    have height := Key.length_ordered64 e.ranking
    have hunsrc := Key.unpadVid_of_padVid (hcanonical _ (by simp [Entity.vids])) hsrc
    have hundst := Key.unpadVid_of_padVid (hcanonical _ (by simp [Entity.vids])) hdst
    simp only [decodeEntity, hedgeType e rfl, List.append_assoc, List.take_left' hwidth,
      List.drop_left' hwidth, List.take_left' height, List.drop_left' height, hunsrc, hundst,
      Key.readOrdered64_ordered64]

/-- The vertex of an entry is read from its key, if its id is canonical. -/
theorem entity_of_decodeKey_vertex {vid : VertexId} (hvid : Canonical vid)
    (hkey : layout.encodeKey part values (.vertex vid) = .ok key)
    (h : layout.decodeKey key = .ok (otherValues, entity)) : entity = .vertex vid := by
  have hcanonical : ∀ other ∈ (Entity.vertex vid).vids, Canonical other := by
    simpa [Entity.vids] using hvid
  have hedgeType (e : EdgeKey) (he : Entity.vertex vid = .edge e) :
      layout.index.owner = .edge e.edgeType := by
    cases he
  rw [entity_of_decodeKey h]
  exact decodeEntity_of_encodeEntity hcanonical hedgeType (encodeEntity_of_encodeKey hkey)

end IndexLayout

end GraphStore
