import GraphStore.Proofs.Index.Mutations
import GraphStore.Proofs.Mutation.UpdateSteps
import GraphStore.Proofs.Mutation.Updates

/-!
# What a prepared update comes to

An update that can be prepared either finds a row that its condition is not true of, or replaces
what it finds by the row that its updates make, with the index entries of that row in place of
those of the old one.
-/

namespace GraphStore

namespace UpdateVertex

/-- What a request finds under the key of its row: a row that can be read, or none where it may
insert one. -/
def Finds (req : UpdateVertex) (node : Node) (schema : Schema) (key : Bytes) : Option Row → Prop
  | some row => ∃ raw, node.get req.space req.part key = .ok (some raw) ∧
      Row.decode schema raw = .ok row
  | none => node.get req.space req.part key = .ok none ∧ req.insertable = true

/-- Whether a request passes every check and finds a row that its condition is not true of. -/
def Rejects (req : UpdateVertex) (node : Node) : Prop :=
  ∃ layout schema condition key row, req.Accepted node layout schema (some condition) key ∧
    req.Finds node schema key (some row) ∧
    condition.eval (req.sees (Row.value? schema row)) ≠ .bool true

/-- The key of a row's entry in an index. -/
def entryKey (req : UpdateVertex) (layout : SpaceLayout) (schema : Schema) (row : Row)
    (index : Index) : Except ErrorCode Bytes :=
  IndexLayout.encodeKey ⟨index, layout.vidLen⟩ req.part
    (index.columns.map fun column => (Row.value? schema row column.name).getD .null)
    (.vertex req.vertex)

/-- Whether a key is that of a row's entry in one of the indexes over its tag. -/
def IsEntry (req : UpdateVertex) (layout : SpaceLayout) (schema : Schema) (row : Row)
    (entry : Bytes) : Prop :=
  ∃ index ∈ layout.indexes, index.owner = .tag req.tag ∧
    req.entryKey layout schema row index = .ok entry

/-- The content of the partition before and after a row is replaced, or put where none was. -/
structure Replaces (req : UpdateVertex) (layout : SpaceLayout) (schema : Schema) (key : Bytes)
    (old : Option Row) (new : Row) (before after : Partition) : Prop where
  row : ∃ raw : Bytes, after[key]? = some raw ∧ Row.decode schema raw = .ok new
  gained : ∀ entry, req.IsEntry layout schema new entry → after[entry]? = some []
  lost : ∀ row, old = some row → ∀ entry, req.IsEntry layout schema row entry →
    ¬ req.IsEntry layout schema new entry → after[entry]? = none
  kept : ∀ other, other ≠ key → ¬ req.IsEntry layout schema new other →
    (∀ row, old = some row → ¬ req.IsEntry layout schema row other) →
      after[other]? = before[other]?

/-- What an update has done: each column of the new row stores what the updates make of the old
row, the new row has an entry in each index, and only its partition is changed. -/
structure Fulfils (req : UpdateVertex) (before after : Node) (layout : SpaceLayout)
    (schema : Schema) (key : Bytes) (old : Option Row) (new : Row) : Prop where
  found : req.Finds before schema key old
  stores : ∀ (i : Nat) (column : Column), schema.columns[i]? = some column →
    ∃ value, new[i]? = some value ∧
      Row.Stores column (req.outcome (start schema old) column.name) value
  indexed : ∀ index ∈ layout.indexes, index.owner = .tag req.tag →
    ∃ entry, req.entryKey layout schema new index = .ok entry
  content : ∃ p q, before.store.parts[(⟨req.space, req.part⟩ : Address)]? = some p ∧
    after.store.parts[(⟨req.space, req.part⟩ : Address)]? = some q ∧
    req.Replaces layout schema key old new p q
  others : ∀ addr : Address, addr ≠ ⟨req.space, req.part⟩ →
    after.store.parts[addr]? = before.store.parts[addr]?

/-- The row that an update returns: whether it inserted one, and the new values asked for. -/
def answer (req : UpdateVertex) (schema : Schema) (old : Option Row) (new : Row) : DataSet where
  columns := insertedColumn :: req.returnProps
  rows := [.bool old.isNone ::
    req.returnProps.map fun name => (req.sees (Row.value? schema new) name).getD .null]

variable {req : UpdateVertex} {node : Node} {layout : SpaceLayout} {schema : Schema}
  {condition : Option Expr} {key : Bytes}

/-- No failure to prepare an update is told as a success, nor as its condition. -/
theorem prepare_truthful (req : UpdateVertex) (node : Node) : Truthful (req.prepare node) := by
  have hread (schema : Schema) (raw : Bytes) : Truthful (readProps schema raw) := by
    unfold readProps
    split <;> exact ⟨nofun, nofun⟩
  have hstored (schema : Schema) (key : Bytes) : Truthful (req.storedProps node schema key) := by
    unfold storedProps
    split
    · next hget => exact node.read_truthful req.space req.part (·[key]?) hget
    · next raw _ =>
      cases hprops : readProps schema raw with
      | ok props => exact .ok _
      | error code => exact (hprops ▸ hread schema raw).passOn
    · split
      · exact .ok _
      · exact ⟨nofun, nofun⟩
  have hchanged (layout : SpaceLayout) (schema : Schema) (key : Bytes) (old : Option Props)
      (props : Props) : Truthful (req.changedRow layout schema key old props) := by
    refine (encodeRow_truthful _ _ _ fun fault => fault.toErrorCode_truthful false).bind fun raw =>
      (hread schema raw).bind fun found => (Index.entryKeys_truthful ..).bind fun keys => ?_
    cases old with
    | none => exact .ok _
    | some old => exact (Index.entryKeys_truthful ..).bind fun _ => .ok _
  have hcondition : Truthful req.decodedCondition := by
    unfold decodedCondition
    split
    · exact .ok _
    · split <;> exact ⟨nofun, nofun⟩
  unfold prepare
  dsimp only
  split
  · refine (Truthful.ok _).bind fun vidLen =>
      (node.schemaOr_truthful _ _ (by exact ⟨nofun, nofun⟩)).bind fun schema => ?_
    split
    · exact ⟨nofun, nofun⟩
    refine hcondition.bind fun condition => ?_
    split
    · refine (Truthful.ok _).bind fun layout => (Key.vertex_truthful ..).bind fun key =>
        (hstored schema key).bind fun old => ?_
      split
      · split
        · exact hchanged ..
        · exact .ok _
      · exact hchanged ..
    · exact ⟨nofun, nofun⟩
  · exact ⟨nofun, nofun⟩

/-- The properties found are those of the row found. -/
theorem storedProps_eq_ok {old : Option Props} : req.storedProps node schema key = .ok old ↔
    ∃ row, req.Finds node schema key row ∧ old = row.map (Props.ofRow schema) := by
  unfold storedProps
  cases hget : node.get req.space req.part key with
  | error code =>
    refine ⟨nofun, ?_⟩
    rintro ⟨row, hfinds, -⟩
    cases row with
    | none => cases hget.symm.trans hfinds.1
    | some row =>
      obtain ⟨raw, hraw, -⟩ := hfinds
      cases hget.symm.trans hraw
  | ok stored =>
    cases stored with
    | none =>
      dsimp only
      constructor
      · intro h
        split at h
        · next hinsertable =>
          cases h
          exact ⟨none, ⟨hget, hinsertable⟩, rfl⟩
        · cases h
      · rintro ⟨row, hfinds, rfl⟩
        cases row with
        | none => exact if_pos hfinds.2
        | some row =>
          obtain ⟨raw, hraw, -⟩ := hfinds
          cases hget.symm.trans hraw
    | some raw =>
      dsimp only
      unfold readProps
      constructor
      · intro h
        cases hrow : Row.decode schema raw with
        | error fault =>
          rw [hrow] at h
          cases h
        | ok row =>
          rw [hrow] at h
          cases h
          exact ⟨some row, ⟨raw, hget, hrow⟩, rfl⟩
      · rintro ⟨row, hfinds, rfl⟩
        cases row with
        | none => cases hget.symm.trans hfinds.1
        | some row =>
          obtain ⟨raw', hraw, hrow⟩ := hfinds
          cases hget.symm.trans hraw
          rw [hrow]
          rfl

/-- Only a request whose condition is not true of its row is filtered. -/
theorem rejects_iff (hnames : ∀ schema, node.catalog.schema? req.space (.tag req.tag) =
    some schema → schema.names.Nodup) :
    req.Rejects node ↔ ∃ props, req.prepare node = .ok (.filtered props) := by
  have hholds {schema : Schema} (hschema : node.catalog.schema? req.space (.tag req.tag) =
      some schema) (row : Row) (condition : Expr) :
      condition.holds (req.lookup (Props.ofRow schema row)) = true ↔
        condition.eval (req.sees (Row.value? schema row)) = .bool true := by
    rw [Expr.holds, decide_eq_true_iff, lookup_eq, Props.get?_ofRow_eq (hnames schema hschema)]
  constructor
  · rintro ⟨layout, schema, condition, key, row, haccepted, hfinds, hfalse⟩
    refine ⟨Props.ofRow schema row, prepare_eq_ok.2 ⟨layout, schema, some condition, key,
      some (Props.ofRow schema row), haccepted, storedProps_eq_ok.2 ⟨some row, hfinds, rfl⟩, ?_⟩⟩
    exact if_neg fun htrue => hfalse ((hholds haccepted.schema_eq row condition).1 htrue)
  · rintro ⟨props, h⟩
    obtain ⟨layout, schema, condition, key, old, haccepted, hold, hsettle⟩ := prepare_eq_ok.1 h
    obtain ⟨row, hfinds, rfl⟩ := storedProps_eq_ok.1 hold
    rcases settle_eq_ok hsettle with ⟨props, filter, hold, rfl, hfalse, -⟩ | hchanged
    · obtain ⟨row, rfl, rfl⟩ := Option.map_eq_some_iff.1 hold
      exact ⟨layout, schema, filter, key, row, haccepted, hfinds, fun htrue =>
        hfalse ((hholds haccepted.schema_eq row filter).2 htrue)⟩
    · obtain ⟨_, _, _, _, -, -, -, -, heq⟩ := changedRow_eq_ok.1 hchanged
      cases heq

/-- The keys made for a row are those of its entries, one in each index. -/
theorem mem_entryKeys (hnodup : schema.names.Nodup) {row : Row} {keys : List Bytes}
    (h : Index.entryKeys layout.vidLen req.part (.tag req.tag) (.vertex req.vertex)
      (Props.ofRow schema row) layout.indexes = .ok keys) :
    (∀ entry, entry ∈ keys ↔ req.IsEntry layout schema row entry) ∧
      ∀ index ∈ layout.indexes, index.owner = .tag req.tag →
        ∃ entry, req.entryKey layout schema row index = .ok entry := by
  have hkey (index : Index) : index.entryKey layout.vidLen req.part (.vertex req.vertex)
      (Props.ofRow schema row) = req.entryKey layout schema row index := by
    rw [Index.entryKey, Index.valuesOf, entryKey, Props.get?_ofRow_eq hnodup]
  have hall := mapM_eq_ok.1 h
  simp only [hkey] at hall
  have hmem {index : Index} : index ∈ layout.indexes.filter (·.owner = .tag req.tag) ↔
      index ∈ layout.indexes ∧ index.owner = .tag req.tag := by
    rw [List.mem_filter, decide_eq_true_iff]
  constructor
  · intro entry
    constructor
    · intro hentry
      obtain ⟨index, hindex, hmade⟩ := exists_of_forall₂_right hall hentry
      exact ⟨index, (hmem.1 hindex).1, (hmem.1 hindex).2, hmade⟩
    · rintro ⟨index, hindex, howner, hmade⟩
      obtain ⟨found, hfound, hmade'⟩ := exists_of_forall₂_left hall (hmem.2 ⟨hindex, howner⟩)
      cases hmade.symm.trans hmade'
      exact hfound
  · intro index hindex howner
    obtain ⟨entry, -, hmade⟩ := exists_of_forall₂_left hall (hmem.2 ⟨hindex, howner⟩)
    exact ⟨entry, hmade⟩

/-- The key of an entry is not that of a vertex row. -/
theorem ne_of_isEntry {row : Row} {entry : Bytes}
    (hkey : Key.vertex layout.vidLen req.part req.vertex req.tag = .ok key)
    (h : req.IsEntry layout schema row entry) : key ≠ entry := by
  obtain ⟨index, -, -, hmade⟩ := h
  rintro rfl
  have hhead : key.head? = some Key.indexKind :=
    IndexLayout.head?_of_indexStem_prefix (IndexLayout.indexStem_prefix hmade)
  rw [Key.head?_of_vertex hkey] at hhead
  exact absurd hhead (by decide)

/-- Removing the keys that only the old row has, then putting the new row with its keys, replaces
the row. -/
theorem replaces_of_keys {old : Option Row} {new : Row} {raw : Bytes} {keys removes : List Bytes}
    (hkey : Key.vertex layout.vidLen req.part req.vertex req.tag = .ok key)
    (hnew : Row.decode schema raw = .ok new)
    (hkeys : ∀ entry, entry ∈ keys ↔ req.IsEntry layout schema new entry)
    (hremoves : ∀ entry, entry ∈ removes ↔
      (∃ row, old = some row ∧ req.IsEntry layout schema row entry) ∧ entry ∉ keys)
    (p : Partition) :
    req.Replaces layout schema key old new p
      ((p.remove removes).put ((key, raw) :: indexEntries keys)) := by
  have hputs (other : Bytes) :
      other ∈ Partition.keysOf ((key, raw) :: indexEntries keys) ↔ other = key ∨ other ∈ keys := by
    simp [indexEntries]
  constructor
  · have hlast : Partition.lastValue? ((key, raw) :: indexEntries keys) key = some raw := by
      apply Partition.lastValue?_of_forall ((hputs key).2 (.inl rfl))
      intro entry hentry heq
      rcases List.mem_cons.1 hentry with rfl | hentry
      · rfl
      · obtain ⟨found, hfound, rfl⟩ := List.mem_map.1 hentry
        exact absurd heq.symm (ne_of_isEntry hkey ((hkeys found).1 hfound))
    exact ⟨raw, by rw [Partition.getElem?_put, hlast]; rfl, hnew⟩
  · intro entry hentry
    have hlast : Partition.lastValue? ((key, raw) :: indexEntries keys) entry = some [] := by
      apply Partition.lastValue?_of_forall ((hputs entry).2 (.inr ((hkeys entry).2 hentry)))
      intro found hfound heq
      rcases List.mem_cons.1 hfound with rfl | hfound
      · exact absurd heq (ne_of_isEntry hkey hentry)
      · obtain ⟨_, -, rfl⟩ := List.mem_map.1 hfound
        rfl
    rw [Partition.getElem?_put, hlast]
    rfl
  · intro row hrow entry hentry hgone
    have hremove : entry ∈ removes :=
      (hremoves entry).2 ⟨⟨row, hrow, hentry⟩, fun h => hgone ((hkeys entry).1 h)⟩
    have hput : entry ∉ Partition.keysOf ((key, raw) :: indexEntries keys) := by
      rw [hputs, hkeys]
      rintro (rfl | h)
      · exact ne_of_isEntry hkey hentry rfl
      · exact hgone h
    rw [Partition.getElem?_put_of_notMem hput, Partition.getElem?_remove, if_pos hremove]
  · intro other hother hnone hold
    have hremove : other ∉ removes := by
      rw [hremoves]
      rintro ⟨⟨row, hrow, hentry⟩, -⟩
      exact hold row hrow hentry
    have hput : other ∉ Partition.keysOf ((key, raw) :: indexEntries keys) := by
      rw [hputs, hkeys]
      rintro (h | h)
      · exact hother h
      · exact hnone h
    rw [Partition.getElem?_put_of_notMem hput, Partition.getElem?_remove, if_neg hremove]

/-- An update that writes replaces the row that it found by the one that its updates make. -/
theorem replaces_of_prepare (hnames : ∀ schema, node.catalog.schema? req.space (.tag req.tag) =
    some schema → schema.names.Nodup) {removes : List Bytes} {puts : List Entry} {props : Props}
    {inserted : Bool} (h : req.prepare node = .ok (.write removes puts props inserted)) :
    ∃ layout schema condition key old new, req.Accepted node layout schema condition key ∧
      req.Finds node schema key old ∧
      (∀ (i : Nat) (column : Column), schema.columns[i]? = some column →
        ∃ value, new[i]? = some value ∧
          Row.Stores column (req.outcome (start schema old) column.name) value) ∧
      (∀ index ∈ layout.indexes, index.owner = .tag req.tag →
        ∃ entry, req.entryKey layout schema new index = .ok entry) ∧
      (∀ p, req.Replaces layout schema key old new p ((p.remove removes).put puts)) ∧
      props = Props.ofRow schema new ∧ inserted = old.isNone := by
  obtain ⟨layout, schema, condition, key, found, haccepted, hfound, hsettle⟩ := prepare_eq_ok.1 h
  obtain ⟨old, hfinds, rfl⟩ := storedProps_eq_ok.1 hfound
  have hnodup := hnames schema haccepted.schema_eq
  rcases settle_eq_ok hsettle with ⟨_, _, -, -, -, heq⟩ | hchanged
  · cases heq
  obtain ⟨raw, _, keys, oldKeys, hraw, hread, hkeys, hold, heq⟩ := changedRow_eq_ok.1 hchanged
  cases heq
  obtain ⟨made, rfl, -, hstores⟩ := (encodeProps_eq_ok hnodup).1 hraw
  -- The row that is read back is the row that was made, since it could be read.
  obtain ⟨new, hnew, rfl⟩ : ∃ new, Row.decode schema (Row.toBytes made) = .ok new ∧
      Props.ofRow schema new = props := by
    unfold readProps at hread
    split at hread
    · next new hnew => exact ⟨new, hnew, Except.ok.inj hread⟩
    · cases hread
  obtain rfl := Row.eq_of_decode_toBytes hnew
  have hstart : ((old.map (Props.ofRow schema)).getD (defaults schema)).get? =
      start schema old := by
    cases old with
    | none => exact get?_defaults hnodup
    | some row => exact Props.get?_ofRow_eq hnodup row
  rw [get?_applyUpdates, hstart] at hstores
  obtain ⟨hmem, hindexed⟩ := mem_entryKeys hnodup hkeys
  refine ⟨layout, schema, condition, key, old, new, haccepted, hfinds, hstores, hindexed,
    fun p => replaces_of_keys haccepted.key_eq hnew hmem (fun entry => ?_) p, rfl,
    Option.isNone_map⟩
  rw [List.mem_filter]
  cases old with
  | none =>
    have hnil : oldKeys = [] := hold
    simp [hnil]
  | some row => simp [(mem_entryKeys hnodup hold).1 entry]

end UpdateVertex

end GraphStore
