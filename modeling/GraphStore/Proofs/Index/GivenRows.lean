import GraphStore.Proofs.Index.Upkeep
import GraphStore.Proofs.Mutation.Updates

/-!
# Rows as a request gives them

A request gives a row by its values, under names or in column order. What is stored for it is the
encoded row under the key of its tag or edge, and an empty entry in each index over the tag or edge
type. A batch of such rows is told apart from the way it was put together: whatever stands between
the rows, of the rows with one key the last is stored, and every index key is there.
-/

namespace GraphStore

/-- A row as a request gives it: its values, and the names that they stand under. Without names they
stand in column order. -/
structure GivenRow where
  row : RowId
  names : List String
  values : List Value
  deriving DecidableEq, Repr

/-- The value of a given row under a name: the last one given, or else the default, or else null. -/
def GivenRow.value (given : GivenRow) (schema : Schema) (name : String) : Value :=
  let names := if given.names.isEmpty then schema.names else given.names
  (((names.zip given.values).reverse.lookup name).or (schema.default? name)).getD .null

/-- The properties that a new row is indexed by are its values. -/
theorem GivenRow.getD_ofGiven (given : GivenRow) (schema : Schema) (name : String) :
    ((Props.ofGiven schema given.names given.values).get? name).getD .null =
      given.value schema name := by
  rw [Props.ofGiven, Props.get?_foldl_fill, Props.ofPairs, Props.get?_foldl_set, value,
    Schema.default?]
  generalize List.lookup name _ = found
  cases found with
  | some value => rfl
  | none => cases schema.columns.find? (·.name = name) <;> rfl

namespace Site

variable {site : Site} {given : GivenRow} {schema : Schema} {r : FullRow}

/-- The key of a given row in an index, made of the values that it has in the index's columns. -/
def givenKey (site : Site) (given : GivenRow) (schema : Schema) (index : Index) :
    Except ErrorCode Bytes :=
  IndexLayout.encodeKey ⟨index, site.vidLen⟩ site.part
    (index.columns.map fun column => given.value schema column.name) given.row.entity

/-- What is stored for a given row: the encoded row under the key of its tag or edge, and its key in
each index over the tag or edge type. -/
structure Makes (site : Site) (given : GivenRow) (schema : Schema) (r : FullRow) : Prop where
  row_eq : r.row = given.row
  schema_eq : site.catalog.schema? site.space given.row.owner = some schema
  key_eq : site.rowKey given.row = .ok r.key
  raw_eq : Row.encode schema given.names given.values = .ok r.raw
  indexed : ∀ index, site.Indexes given.row index →
    ∃ entry ∈ r.keys, site.givenKey given schema index = .ok entry
  tight : ∀ entry ∈ r.keys, ∃ index, site.Indexes given.row index ∧
    site.givenKey given schema index = .ok entry

/-- The key of a given row is made of the properties that it is indexed by. -/
theorem entryKey_ofGiven (index : Index) :
    site.entryKey index given.row (Props.ofGiven schema given.names given.values) =
      site.givenKey given schema index := by
  simp only [entryKey, Index.entryKey, Index.valuesOf, givenKey, given.getD_ofGiven]

/-- What is prepared for a given row is what is stored for it. -/
theorem makes_of_entryKeys {key raw : Bytes} {keys : List Bytes} {indexes : List Index}
    (hschema : site.catalog.schema? site.space given.row.owner = some schema)
    (hraw : Row.encode schema given.names given.values = .ok raw)
    (hkey : site.rowKey given.row = .ok key)
    (hindexes : site.catalog.indexes site.space given.row.owner.isEdge = .ok indexes)
    (hkeys : Index.entryKeys site.vidLen site.part given.row.owner given.row.entity
      (Props.ofGiven schema given.names given.values) indexes = .ok keys) :
    site.Makes given schema ⟨given.row, key, raw, keys⟩ := by
  obtain ⟨hindexed, htight⟩ := site.entryKeys_spec given.row hindexes hkeys
  refine ⟨rfl, hschema, hkey, hraw, fun index hindex => ?_, fun entry hentry => ?_⟩
  · obtain ⟨entry, hentry, hmem⟩ := hindexed index hindex
    exact ⟨entry, hmem, entryKey_ofGiven index ▸ hentry⟩
  · obtain ⟨index, hindex, hentry⟩ := htight entry hentry
    exact ⟨index, hindex, entryKey_ofGiven index ▸ hentry⟩

end Site

/-- Whether the keys of a row are those of a row and of index entries. -/
structure FullRow.Kinds (r : FullRow) : Prop where
  key : r.key.head? ≠ some Key.indexKind
  keys : ∀ entry ∈ r.keys, entry.head? = some Key.indexKind

/-- What is stored for a given row has the keys of a row and of index entries. -/
theorem Site.Makes.kinds {site : Site} {given : GivenRow} {schema : Schema} {r : FullRow}
    (h : site.Makes given schema r) : r.Kinds where
  key := Site.head?_of_rowKey h.key_eq
  keys entry hentry := by
    obtain ⟨index, -, hkey⟩ := h.tight entry hentry
    exact IndexLayout.head?_of_indexStem_prefix (IndexLayout.indexStem_prefix hkey)

/-- A batch of rows: the rows themselves in their order, and anywhere between them the empty entries
of all their index keys. -/
structure Carries (batch : List Entry) (rows : List FullRow) : Prop where
  kinds : ∀ r ∈ rows, r.Kinds
  rows_eq : batch.filter (·.1.head? ≠ some Key.indexKind) = rows.map fun r => (r.key, r.raw)
  mem_iff : ∀ entry : Entry, entry.1.head? = some Key.indexKind →
    (entry ∈ batch ↔ entry.2 = [] ∧ ∃ r ∈ rows, entry.1 ∈ r.keys)

/-- What a partition gains with some rows: of those with one key the last is stored, every index key
holds an empty entry, and all other keys keep their values. -/
structure Gains (rows : List FullRow) (before after : Partition) : Prop where
  stored : ∀ key r, (rows.filter (·.key = key)).getLast? = some r → after[key]? = some r.raw
  indexed : ∀ r ∈ rows, ∀ entry ∈ r.keys, after[entry]? = some []
  kept : ∀ key, (∀ r ∈ rows, key ≠ r.key ∧ key ∉ r.keys) → after[key]? = before[key]?

namespace Carries

variable {batch more : List Entry} {rows others : List FullRow} {key : Bytes}

/-- An empty batch has no rows. -/
theorem nil : Carries [] [] := ⟨nofun, rfl, fun entry _ => by simp⟩

/-- Batches one after another carry the rows of both. -/
theorem append (h : Carries batch rows) (h' : Carries more others) :
    Carries (batch ++ more) (rows ++ others) where
  kinds r hr := (List.mem_append.1 hr).elim (h.kinds r) (h'.kinds r)
  rows_eq := by rw [List.filter_append, h.rows_eq, h'.rows_eq, List.map_append]
  mem_iff entry hentry := by
    simp only [List.mem_append, h.mem_iff entry hentry, h'.mem_iff entry hentry, or_and_right,
      exists_or, and_or_left]

/-- All rows, then all index entries. -/
theorem grouped (hkinds : ∀ r ∈ rows, r.Kinds) :
    Carries ((rows.map fun r => (r.key, r.raw)) ++ rows.flatMap fun r => indexEntries r.keys)
      rows where
  kinds := hkinds
  rows_eq := by
    have hrows : (rows.map fun r => (r.key, r.raw)).filter
        (fun entry : Entry => entry.1.head? ≠ some Key.indexKind) =
          rows.map fun r => (r.key, r.raw) := by
      refine List.filter_eq_self.2 fun entry hentry => ?_
      obtain ⟨r, hr, rfl⟩ := List.mem_map.1 hentry
      exact decide_eq_true (hkinds r hr).key
    have hindex : (rows.flatMap fun r => indexEntries r.keys).filter
        (fun entry : Entry => entry.1.head? ≠ some Key.indexKind) = [] := by
      refine List.filter_eq_nil_iff.2 fun entry hentry => ?_
      obtain ⟨r, hr, hentry⟩ := List.mem_flatMap.1 hentry
      obtain ⟨key, hkey, rfl⟩ := List.mem_map.1 hentry
      simpa using (hkinds r hr).keys key hkey
    rw [List.filter_append, hrows, hindex, List.append_nil]
  mem_iff entry hentry := by
    obtain ⟨key, value⟩ := entry
    rw [List.mem_append, List.mem_flatMap]
    constructor
    · rintro (hrow | ⟨r, hr, hindex⟩)
      · obtain ⟨r, hr, heq⟩ := List.mem_map.1 hrow
        cases heq
        exact absurd hentry (hkinds r hr).key
      · obtain ⟨found, hfound, heq⟩ := List.mem_map.1 hindex
        cases heq
        exact ⟨rfl, r, hr, hfound⟩
    · rintro ⟨rfl, r, hr, hkey⟩
      exact .inr ⟨r, hr, List.mem_map.2 ⟨key, hkey, rfl⟩⟩

/-- The entries of rows, one row after another. -/
theorem entries (hkinds : ∀ r ∈ rows, r.Kinds) : Carries (rows.flatMap FullRow.entries) rows := by
  induction rows with
  | nil => exact .nil
  | cons r rows ih =>
    obtain ⟨hfirst, hrest⟩ := List.forall_mem_cons.1 hkinds
    have hone : Carries ([r].map (fun r => (r.key, r.raw)) ++ [r].flatMap fun r => indexEntries r.keys)
        [r] := grouped fun other hother => List.mem_singleton.1 hother ▸ hfirst
    rw [List.flatMap_singleton] at hone
    exact hone.append (ih hrest)

/-- The keys of a batch are those of its rows and their index keys. -/
theorem mem_keysOf (h : Carries batch rows) (hkey : key ∈ Partition.keysOf batch) :
    ∃ r ∈ rows, key = r.key ∨ key ∈ r.keys := by
  obtain ⟨entry, hentry, rfl⟩ := List.mem_map.1 hkey
  by_cases hkind : entry.1.head? = some Key.indexKind
  · obtain ⟨-, r, hr, hmem⟩ := (h.mem_iff entry hkind).1 hentry
    exact ⟨r, hr, .inr hmem⟩
  · have hrow : entry ∈ batch.filter (·.1.head? ≠ some Key.indexKind) :=
      List.mem_filter.2 ⟨hentry, decide_eq_true hkind⟩
    rw [h.rows_eq] at hrow
    obtain ⟨r, hr, rfl⟩ := List.mem_map.1 hrow
    exact ⟨r, hr, .inl rfl⟩

/-- Under the key of a row a batch has the rows with this key. -/
theorem filter_key (h : Carries batch rows) (hkey : key.head? ≠ some Key.indexKind) :
    batch.filter (·.1 = key) = (rows.filter (·.key = key)).map fun r => (r.key, r.raw) := by
  have hkind : batch.filter (·.1 = key) =
      (batch.filter (·.1.head? ≠ some Key.indexKind)).filter (·.1 = key) := by
    rw [List.filter_filter]
    refine List.filter_congr fun entry _ => ?_
    by_cases heq : entry.1 = key
    · simp [heq, hkey]
    · simp [heq]
  rw [hkind, h.rows_eq, List.filter_map]
  rfl

/-- A put of a batch gains its rows. -/
theorem gains (h : Carries batch rows) (p : Partition) : Gains rows p (p.put batch) where
  stored key r hlast := by
    obtain ⟨hr, hkey⟩ := List.mem_filter.1 (List.mem_of_getLast? hlast)
    have hkind : key.head? ≠ some Key.indexKind := of_decide_eq_true hkey ▸ (h.kinds r hr).key
    have hvalue : Partition.lastValue? batch key = some r.raw := by
      rw [Partition.lastValue?, h.filter_key hkind, List.getLast?_map, hlast]
      rfl
    rw [Partition.getElem?_put, hvalue, Option.some_or]
  indexed r hr entry hentry := by
    have hkind := (h.kinds r hr).keys entry hentry
    have hmem : (entry, []) ∈ batch := (h.mem_iff _ hkind).2 ⟨rfl, r, hr, hentry⟩
    have hvalue : Partition.lastValue? batch entry = some [] := by
      refine Partition.lastValue?_of_forall (List.mem_map_of_mem hmem) fun other hother heq => ?_
      exact ((h.mem_iff other (heq ▸ hkind)).1 hother).1
    rw [Partition.getElem?_put, hvalue, Option.some_or]
  kept key hnone := by
    refine Partition.getElem?_put_of_notMem (fun hkey => ?_) p
    obtain ⟨r, hr, hown | hindex⟩ := h.mem_keysOf hkey
    · exact (hnone r hr).1 hown
    · exact (hnone r hr).2 hindex

end Carries

end GraphStore
