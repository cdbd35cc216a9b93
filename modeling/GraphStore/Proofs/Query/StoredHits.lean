import GraphStore.Proofs.Index.Content
import GraphStore.Proofs.Key.IndexReadings
import GraphStore.Proofs.Query.Hits

/-!
# Hits and the rows behind them

Where no index entry is stale, a hit belongs to a stored row: its index values are those of the row,
as the index keeps them, and a join finds the row. So a join loses no hit, and neither does it fail.
-/

namespace GraphStore

/-- Whether a partition stores a row of a tag or edge type with these properties. -/
def Site.HasRow (site : Site) (p : Partition) (owner : SchemaRef) (props : Props) : Prop :=
  ∃ row key raw, row.owner = owner ∧ site.rowKey row = .ok key ∧ p[key]? = some raw ∧
    site.Reads row raw props

namespace QueryScope

variable {scope : QueryScope} {part : PartId} {p : Partition} {layout : IndexLayout}
  {hints : List ColumnHint} {schema : Schema} {props : Props} {hit : Candidate}
  {hits : List Candidate}

/-- The partition that is looked at. -/
def site (scope : QueryScope) (part : PartId) : Site where
  catalog := scope.node.catalog
  space := scope.space
  vidLen := scope.vidLen
  part

/-- The row that is looked up for an entity. -/
def rowOf (scope : QueryScope) : Entity → RowId
  | .vertex vid => .tag vid scope.schemaId
  | .edge edge => .edge edge

/-- Whether a hit belongs to a row with these properties: the row is read for it, and its index
values are those of the row, as the index keeps them. -/
structure Backs (scope : QueryScope) (part : PartId) (layout : IndexLayout) (schema : Schema)
    (props : Props) (hit : Candidate) : Prop where
  found : ∃ raw row, scope.entityRow part none hit.entity = (none, .ok (some raw)) ∧
    Row.decode schema raw = .ok row ∧ Props.ofRow schema row = props
  values : hit.indexValues =
    IndexLayout.keptValues layout.index.columns (layout.index.valuesOf props)

/-- A partition from which an index is read is not down. -/
theorem up_of_scan (h : scope.scan part layout hints = .ok hits) : part ∉ scope.node.down := by
  intro hdown
  have hread {α : Type} (result : Except EngineCode α) :
      (scope.node.reading part result).mapError EngineCode.toErrorCode = .error .unknown := by
    rw [Node.reading, if_pos hdown]
    rfl
  obtain ⟨entries, hentries, -⟩ := bind_eq_ok.1 h
  obtain ⟨stem, -, hentries⟩ := bind_eq_ok.1 hentries
  dsimp only at hentries
  split at hentries
  · cases (hread _).symm.trans hentries
  · split at hentries
    case h_2 => cases hentries
    obtain ⟨column, -, hentries⟩ := bind_eq_ok.1 hentries
    obtain ⟨low, -, hentries⟩ := bind_eq_ok.1 hentries
    split at hentries
    · cases (hread _).symm.trans hentries
    · obtain ⟨high, -, hentries⟩ := bind_eq_ok.1 hentries
      cases (hread _).symm.trans hentries

/-- Without a cache the row of an entity is read from the partition. -/
theorem entityRow_eq (hup : part ∉ scope.node.down)
    (hp : scope.node.store.parts[(⟨scope.space, part⟩ : Address)]? = some p) {entity : Entity}
    {key : Bytes} (hkey : (scope.site part).rowKey (scope.rowOf entity) = .ok key) :
    scope.entityRow part none entity = (none, .ok p[key]?) := by
  have hget : (scope.node.get scope.space part key).mapError EngineCode.toErrorCode =
      .ok p[key]? := by
    rw [Node.get, Node.reading, if_neg hup, Store.get, Store.read, hp]
    rfl
  cases entity with
  | vertex vid =>
    have hvertex : Key.vertex scope.vidLen part vid scope.schemaId = .ok key := hkey
    rw [entityRow, vertexRow, storedVertexRow, hvertex, ← hget]
    rfl
  | edge edge =>
    have hedge : Key.edge scope.vidLen part edge = .ok key := hkey
    rw [entityRow, storedEdgeRow, hedge, ← hget]
    rfl

/-- An entity of an index's key is looked up as a row of the index's tag or edge type. -/
theorem owner_rowOf {isEdge : Bool} (howner : layout.index.owner = .of isEdge scope.schemaId)
    (raw : Bytes) : (scope.rowOf (layout.decodeEntity raw)).owner = layout.index.owner := by
  unfold IndexLayout.decodeEntity
  cases isEdge with
  | false =>
    have htag : layout.index.owner = .tag scope.schemaId := howner
    rw [htag]
    rfl
  | true =>
    have hedge : layout.index.owner = .edge scope.schemaId := howner
    rw [hedge]
    rfl

/-- Where no index entry is stale, every hit of a scan belongs to a stored row. -/
theorem backs_of_scan (hregistered : scope.node.catalog.Registered)
    (hp : scope.node.store.parts[(⟨scope.space, part⟩ : Address)]? = some p)
    (hfresh : (scope.site part).StaleFree p) (hvidLen : layout.vidLen = scope.vidLen)
    {id : IndexId} (hid : (scope.node.catalog.entry scope.space).indexes[id]? = some layout.index)
    {isEdge : Bool} (howner : layout.index.owner = .of isEdge scope.schemaId)
    (hscan : scope.scan part layout hints = .ok hits) (hhit : hit ∈ hits) :
    ∃ schema props, scope.node.catalog.schema? scope.space layout.index.owner = some schema ∧
      (scope.site part).HasRow p layout.index.owner props ∧
      scope.Backs part layout schema props hit := by
  obtain ⟨stored, hstored, hmem, hstem, hdecode⟩ := mem_scan hscan hhit
  obtain rfl : p = stored := Option.some.inj (hp.symm.trans hstored)
  obtain ⟨row, key, raw, hkey, hraw, props, other, hreads, ⟨hother, id', hid'⟩, hentry⟩ :=
    hfresh hit.key hmem (IndexLayout.head?_of_indexStem_prefix hstem)
  obtain ⟨index, width⟩ := layout
  obtain rfl : width = scope.vidLen := hvidLen
  have hentry' := Site.encodeKey_of_entryKey hentry
  have hstem' := IndexLayout.indexStem_prefix hentry'
  obtain rfl : index = other := hregistered.eq_of_stem hid hid' hstem hstem'
  obtain ⟨hvalues, hsame⟩ := IndexLayout.of_decodeKey hentry' hdecode
  have hrow : (scope.rowOf hit.entity).owner = index.owner := by
    rw [IndexLayout.entity_of_decodeKey hdecode]
    exact @owner_rowOf scope ⟨index, scope.vidLen⟩ isEdge howner _
  have hraw' := IndexLayout.encodeEntity_of_encodeKey hentry'
  have hentity : (scope.rowOf hit.entity).entity = hit.entity := by
    cases hit.entity <;> rfl
  have hlookup : (scope.site part).rowKey (scope.rowOf hit.entity) = .ok key := by
    rw [← hkey]
    refine Site.rowKey_of_encodeEntity (hrow.trans hother) ?_ hraw'
    rw [hentity]
    exact hsame.trans hraw'
  obtain ⟨schema, values, hschema, hread, rfl⟩ := hreads
  have hfound : scope.entityRow part none hit.entity = (none, .ok (some raw)) := by
    rw [entityRow_eq (up_of_scan hscan) hp hlookup, hraw]
  have hstored : (scope.site part).HasRow p index.owner (Props.ofRow schema values) :=
    ⟨row, key, raw, hother.symm, hkey, hraw, schema, values, hschema, hread, rfl⟩
  exact ⟨schema, Props.ofRow schema values, hother.symm ▸ hschema, hstored,
    ⟨raw, values, hfound, hread, rfl⟩, hvalues⟩

/-- The properties of the row that is read for an entity, if there is one. -/
def props? (scope : QueryScope) (part : PartId) (schema : Schema) (entity : Entity) :
    Option Props :=
  match (scope.entityRow part none entity).2 with
  | .ok (some raw) => (Row.decode schema raw).toOption.map (Props.ofRow schema)
  | _ => none

/-- The properties of the row behind a hit are those of the row that is read for it. -/
theorem Backs.props?_eq (h : scope.Backs part layout schema props hit) :
    scope.props? part schema hit.entity = some props := by
  obtain ⟨raw, row, hrow, hread, rfl⟩ := h.found
  rw [props?, hrow]
  dsimp only
  rw [hread]
  rfl

/-- A join hands on every hit that belongs to a row, with the properties of the row. -/
theorem join_of_backs (h : ∀ hit ∈ hits, ∃ props, scope.Backs part layout schema props hit) :
    scope.join part schema none hits =
      (none, .ok (hits.map fun hit =>
        { hit with props := scope.props? part schema hit.entity })) := by
  induction hits with
  | nil => rfl
  | cons hit hits ih =>
    obtain ⟨props, hbacks⟩ := h hit List.mem_cons_self
    obtain ⟨raw, row, hrow, hread, hprops⟩ := hbacks.found
    have hrest := ih fun other hother => h other (List.mem_cons_of_mem _ hother)
    rw [List.map_cons, hbacks.props?_eq]
    simp only [join, hrow, hrest, joined?, Option.bind_some, hread, hprops]
    rfl

end QueryScope

end GraphStore
