import GraphStore.Proofs.Index.Content
import GraphStore.Proofs.Key.IndexEntries
import GraphStore.Proofs.Mutation.AllOrNothing
import GraphStore.Proofs.Mutation.UpdateSteps

/-!
# Upkeep of index entries

Whatever a mutation writes keeps rows and index entries together: an insert puts rows with exactly
the entries that belong to them, a deletion removes rows with theirs, and an update replaces one row
and removes the entries that only the old row had.
-/

namespace GraphStore

/-- A catalog as registered, with distinct column names, index columns of the types of the columns
they are named after, and finite defaults. -/
structure Catalog.Sound (catalog : Catalog) : Prop where
  registered : catalog.Registered
  names : ∀ space ref schema, catalog.schema? space ref = some schema → schema.names.Nodup
  types : ∀ space (id : IndexId) index schema,
    (catalog.entry space).indexes[id]? = some index →
      catalog.schema? space index.owner = some schema → ∀ indexColumn ∈ index.columns,
        ∀ column ∈ schema.columns, column.name = indexColumn.name → column.ty = indexColumn.ty
  defaults : ∀ space ref schema, catalog.schema? space ref = some schema →
    ∀ column ∈ schema.columns, ∀ value, column.default = some value → value.isFinite = true

/-- The listed indexes are those registered over tags or over edge types. -/
theorem Catalog.mem_of_indexes {catalog : Catalog} {space : SpaceId} {onEdges : Bool}
    {indexes : List Index} (h : catalog.indexes space onEdges = .ok indexes) (index : Index) :
    index ∈ indexes ↔ (∃ id : IndexId, (catalog.entry space).indexes[id]? = some index) ∧
      index.owner.isEdge = onEdges := by
  unfold Catalog.indexes at h
  dsimp only at h
  split at h
  · cases h
  · cases h
    rw [List.mem_filter, List.mem_map, decide_eq_true_iff]
    constructor
    · rintro ⟨⟨⟨id, found⟩, hmem, rfl⟩, hedge⟩
      exact ⟨⟨id, Std.ExtTreeMap.mem_toList_iff_getElem?_eq_some.1 hmem⟩, hedge⟩
    · rintro ⟨⟨id, hid⟩, hedge⟩
      exact ⟨⟨(id, index), Std.ExtTreeMap.mem_toList_iff_getElem?_eq_some.2 hid, rfl⟩, hedge⟩

namespace Site

variable {site : Site} {row : RowId} {key raw : Bytes} {keys : List Bytes} {indexes : List Index}
  {props : Props} {schema : Schema}

/-- The listed indexes over the tag or edge type of a row are its indexes. -/
theorem mem_filter_indexes (site : Site) (row : RowId)
    (hindexes : site.catalog.indexes site.space row.owner.isEdge = .ok indexes) {index : Index} :
    index ∈ indexes.filter (·.owner = row.owner) ↔ site.Indexes row index := by
  rw [List.mem_filter, Catalog.mem_of_indexes hindexes, decide_eq_true_iff, Indexes]
  constructor
  · rintro ⟨⟨hid, -⟩, howner⟩
    exact ⟨howner, hid⟩
  · rintro ⟨howner, hid⟩
    exact ⟨⟨hid, by rw [howner]⟩, howner⟩

/-- The keys made for a row are its keys in all indexes. -/
theorem entryKeys_spec (site : Site) (row : RowId)
    (hindexes : site.catalog.indexes site.space row.owner.isEdge = .ok indexes)
    (hkeys : Index.entryKeys site.vidLen site.part row.owner row.entity props indexes = .ok keys) :
    (∀ index, site.Indexes row index → ∃ entry, site.entryKey index row props = .ok entry ∧
        entry ∈ keys) ∧
      ∀ entry ∈ keys, ∃ index, site.Indexes row index ∧
        site.entryKey index row props = .ok entry := by
  have hall := mapM_eq_ok.1 hkeys
  constructor
  · intro index hindex
    obtain ⟨entry, hentry, hkey⟩ :=
      exists_of_forall₂_left hall ((site.mem_filter_indexes row hindexes).2 hindex)
    exact ⟨entry, hkey, hentry⟩
  · intro entry hentry
    obtain ⟨index, hindex, hkey⟩ := exists_of_forall₂_right hall hentry
    exact ⟨index, (site.mem_filter_indexes row hindexes).1 hindex, hkey⟩

/-- The keys made for the properties that a row reads as are its index keys. -/
theorem mem_entryKeys_iff (hreads : site.Reads row raw props)
    (hindexes : site.catalog.indexes site.space row.owner.isEdge = .ok indexes)
    (hkeys : Index.entryKeys site.vidLen site.part row.owner row.entity props indexes = .ok keys)
    {entry : Bytes} : entry ∈ keys ↔ site.HasEntry row raw entry := by
  obtain ⟨hall, hmade⟩ := entryKeys_spec site row hindexes hkeys
  constructor
  · intro hentry
    obtain ⟨index, hindex, hmake⟩ := hmade entry hentry
    exact ⟨props, index, hreads, hindex, hmake⟩
  · rintro ⟨others, index, hreads', hindex, hmake⟩
    obtain rfl := hreads.unique hreads'
    obtain ⟨found, hfound, hmem⟩ := hall index hindex
    obtain rfl := Except.ok.inj (hmake.symm.trans hfound)
    exact hmem

/-- The keys of a row that can be read are made when it has a key in every index. -/
theorem exists_entryKeys (hreads : site.Reads row raw props)
    (hindexes : site.catalog.indexes site.space row.owner.isEdge = .ok indexes) :
    (∃ keys, Index.entryKeys site.vidLen site.part row.owner row.entity props indexes = .ok keys) ↔
      site.Keyable row raw := by
  unfold Index.entryKeys
  rw [exists_mapM_eq_ok]
  constructor
  · intro hall others index hreads' hindex
    obtain rfl := hreads.unique hreads'
    exact hall index ((site.mem_filter_indexes row hindexes).2 hindex)
  · intro hkeyable index hindex
    exact hkeyable props index hreads ((site.mem_filter_indexes row hindexes).1 hindex)

/-- A row with the keys made for the properties it reads as is full. -/
theorem isFull_of_reads (hkey : site.rowKey row = .ok key) (hreads : site.Reads row raw props)
    (hindexes : site.catalog.indexes site.space row.owner.isEdge = .ok indexes)
    (hkeys : Index.entryKeys site.vidLen site.part row.owner row.entity props indexes = .ok keys) :
    site.IsFull ⟨row, key, raw, keys⟩ where
  key := hkey
  covered := ⟨props, hreads, (entryKeys_spec site row hindexes hkeys).1⟩
  tight _ hentry := (mem_entryKeys_iff hreads hindexes hkeys).1 hentry

/-- A row of finite values with the keys made for the values as given is full. -/
theorem isFull_of_given (hsound : site.catalog.Sound) (hkey : site.rowKey row = .ok key)
    (hschema : site.catalog.schema? site.space row.owner = some schema) {names : List String}
    {values : List Value} (hfinite : Row.Finite values)
    (hraw : Row.encode schema names values = .ok raw)
    (hindexes : site.catalog.indexes site.space row.owner.isEdge = .ok indexes)
    (hkeys : Index.entryKeys site.vidLen site.part row.owner row.entity
      (Props.ofGiven schema names values) indexes = .ok keys) :
    site.IsFull ⟨row, key, raw, keys⟩ := by
  have hnodup := hsound.names site.space row.owner schema hschema
  obtain ⟨stored, hstored, hdecode⟩ := Row.decode_of_encode hnodup
    (hsound.defaults site.space row.owner schema hschema) hfinite hraw
  have htypes : ∀ index ∈ indexes, index.owner = row.owner → ∀ indexColumn ∈ index.columns,
      ∀ column ∈ schema.columns, column.name = indexColumn.name →
        column.ty = indexColumn.ty := by
    intro index hindex howner
    obtain ⟨⟨id, hid⟩, -⟩ := (Catalog.mem_of_indexes hindexes index).1 hindex
    exact hsound.types site.space id index schema hid (howner ▸ hschema)
  rw [Index.entryKeys_ofGiven hnodup hstored htypes] at hkeys
  exact isFull_of_reads hkey ⟨schema, stored, hschema, hdecode, rfl⟩ hindexes hkeys

/-- Batches of full rows make a batch of these. -/
theorem madeOf_flatten {named : List RowId} {batches : List (List Entry)}
    (h : List.Forall₂ (fun row batch => ∃ r : FullRow, site.IsFull r ∧ r.row = row ∧ batch = r.entries)
      named batches) :
    ∃ rows, site.MadeOf batches.flatten rows ∧ rows.map (·.row) = named := by
  induction h with
  | nil => exact ⟨[], ⟨nofun, fun entry => by simp⟩, rfl⟩
  | cons hfirst _ ih =>
    obtain ⟨r, hfull, rfl, rfl⟩ := hfirst
    obtain ⟨rows, hrows, rfl⟩ := ih
    exact ⟨r :: rows, hfull.madeOf.append hrows, rfl⟩

end Site

namespace AddVertices

variable {req : AddVertices} {node : Node} {layout : SpaceLayout} {part : PartId} {item : TagItem}

/-- What is written for a tag row is the row with its entries. -/
theorem full_of_entries (hsound : node.catalog.Sound)
    (hlayout : node.layout req.space false = .ok layout) (hfinite : Row.Finite item.props)
    {batch : List Entry} (h : req.entries node layout part item = .ok batch) :
    ∃ r : FullRow, Site.IsFull ⟨node.catalog, req.space, layout.vidLen, part⟩ r ∧
      r.row = .tag item.vid item.tag ∧ batch = r.entries := by
  obtain ⟨schema, raw, key, keys, hschema, hraw, hkey, hkeys, rfl⟩ := entries_eq_ok.1 h
  exact ⟨⟨.tag item.vid item.tag, key, raw, keys⟩,
    Site.isFull_of_given hsound hkey hschema hfinite hraw (Node.layout_eq_ok.1 hlayout).2 hkeys,
    rfl, rfl⟩

end AddVertices

namespace AddEdges

variable {req : AddEdges} {node : Node} {layout : SpaceLayout} {part : PartId} {edge : NewEdge}

/-- What is written for an edge is the row with its entries. -/
theorem full_of_entries (hsound : node.catalog.Sound)
    (hlayout : node.layout req.space true = .ok layout) (hfinite : Row.Finite edge.props)
    {batch : List Entry} (h : req.entries node layout part edge = .ok batch) :
    ∃ r : FullRow, Site.IsFull ⟨node.catalog, req.space, layout.vidLen, part⟩ r ∧
      r.row = .edge edge.key ∧ batch = r.entries := by
  obtain ⟨schema, raw, key, keys, hschema, hraw, hkey, hkeys, rfl⟩ := entries_eq_ok.1 h
  exact ⟨⟨.edge edge.key, key, raw, keys⟩,
    Site.isFull_of_given hsound hkey hschema hfinite hraw (Node.layout_eq_ok.1 hlayout).2 hkeys,
    rfl, rfl⟩

/-- An edge made ready is the row with its entries. -/
theorem full_of_readyEdge (hsound : node.catalog.Sound)
    (hlayout : node.layout req.space true = .ok layout) (hfinite : Row.Finite edge.props)
    {ready : ReadyEdge} (h : req.readyEdge node layout part edge = .ok ready) :
    ∃ r : FullRow, Site.IsFull ⟨node.catalog, req.space, layout.vidLen, part⟩ r ∧
      r.row = .edge edge.key ∧ ready.row :: ready.indexEntries = r.entries :=
  full_of_entries hsound hlayout hfinite (readyEdge_eq_ok.1 h).2

end AddEdges

namespace UpdateVertex

variable {req : UpdateVertex} {node : Node} {layout : SpaceLayout} {schema : Schema}
  {key raw : Bytes} {props : Props} {old : Option Props} {removes : List Bytes}
  {puts : List Entry} {inserted : Bool}

/-- The properties of a stored row are those it reads as. -/
theorem reads_of_readProps {site : Site} {row : RowId}
    (hschema : site.catalog.schema? site.space row.owner = some schema)
    (h : readProps schema raw = .ok props) : site.Reads row raw props := by
  unfold readProps at h
  split at h
  · next values hvalues =>
    cases h
    exact ⟨schema, values, hschema, hvalues, rfl⟩
  · cases h

/-- A changed row is put with its entries, and the entries of the old row that it does not have are
removed. -/
theorem changedRow_write (site : Site) (hspace : site.vidLen = layout.vidLen ∧ site.part = req.part)
    (hschema : site.catalog.schema? site.space (.tag req.tag) = some schema)
    (hindexes : site.catalog.indexes site.space false = .ok layout.indexes)
    (hkey : site.rowKey (.tag req.vertex req.tag) = .ok key) {given : Props}
    (h : req.changedRow layout schema key old given = .ok (.write removes puts props inserted)) :
    ∃ r : FullRow, r.row = .tag req.vertex req.tag ∧ r.key = key ∧ site.IsFull r ∧
      puts = r.entries ∧ (∀ entry ∈ removes, site.IsEntryOf r.row entry) ∧
      ∀ stored, old = some stored → ∀ entry index, site.Indexes r.row index →
        site.entryKey index r.row stored = .ok entry → entry ∈ removes ∨ entry ∈ r.keys := by
  obtain ⟨raw, found, keys, oldKeys, -, hread, hkeys, holdKeys, hwrite⟩ := changedRow_eq_ok.1 h
  cases hwrite
  rw [← hspace.1, ← hspace.2] at hkeys holdKeys
  refine ⟨⟨.tag req.vertex req.tag, key, raw, keys⟩, rfl, rfl,
    Site.isFull_of_reads hkey (reads_of_readProps hschema hread) hindexes hkeys, rfl, ?_⟩
  cases old with
  | none =>
    obtain rfl : oldKeys = [] := holdKeys
    exact ⟨nofun, nofun⟩
  | some stored =>
    obtain ⟨hall, hmade⟩ := site.entryKeys_spec (.tag req.vertex req.tag) hindexes holdKeys
    refine ⟨fun entry hentry => ?_, fun stored' heq entry index hindex hentry => ?_⟩
    · obtain ⟨index, hindex, hmake⟩ := hmade entry (List.mem_filter.1 hentry).1
      exact ⟨index, stored, hindex, hmake⟩
    · cases heq
      obtain ⟨found, hfound, hmem⟩ := hall index hindex
      obtain rfl := Except.ok.inj (hentry.symm.trans hfound)
      by_cases hnew : entry ∈ keys
      · exact .inr hnew
      · exact .inl (List.mem_filter.2 ⟨hmem, by simpa using hnew⟩)

/-- The properties of the stored row are those it reads as, if there is one. -/
theorem storedProps_spec (site : Site) (row : RowId)
    (hschema : site.catalog.schema? site.space row.owner = some schema)
    (h : req.storedProps node schema key = .ok old) {stored : Bytes}
    (hstored : node.get req.space req.part key = .ok (some stored)) :
    ∃ props, old = some props ∧ site.Reads row stored props := by
  unfold storedProps at h
  rw [hstored] at h
  obtain ⟨props, hprops, rfl⟩ := map_eq_ok.1 h
  exact ⟨props, rfl, reads_of_readProps hschema hprops⟩

/-- An update that writes puts one row with its entries, and removes those of the old row that the
new one does not have. -/
theorem prepare_write (h : req.prepare node = .ok (.write removes puts props inserted)) :
    ∃ vidLen, node.catalog.vidLen req.space = .ok vidLen ∧ ∃ r : FullRow,
      r.row = .tag req.vertex req.tag ∧
      Site.IsFull ⟨node.catalog, req.space, vidLen, req.part⟩ r ∧ puts = r.entries ∧
      (∀ entry ∈ removes,
        Site.IsEntryOf ⟨node.catalog, req.space, vidLen, req.part⟩ r.row entry) ∧
      ∀ old entry, node.get req.space req.part r.key = .ok (some old) →
        Site.HasEntry ⟨node.catalog, req.space, vidLen, req.part⟩ r.row old entry →
          entry ∈ removes ∨ entry ∈ r.keys := by
  obtain ⟨layout, schema, condition, key, old, haccepted, hold, hsettle⟩ := prepare_eq_ok.1 h
  obtain ⟨hvidLen, hindexes⟩ := Node.layout_eq_ok.1 haccepted.layout_eq
  rcases settle_eq_ok hsettle with ⟨_, _, -, -, -, heq⟩ | hchanged
  · cases heq
  let site : Site := ⟨node.catalog, req.space, layout.vidLen, req.part⟩
  obtain ⟨r, hrow, rfl, hfull, hputs, hremoves, hkept⟩ :=
    changedRow_write site ⟨rfl, rfl⟩ haccepted.schema_eq hindexes haccepted.key_eq hchanged
  refine ⟨layout.vidLen, hvidLen, r, hrow, hfull, hputs, hremoves,
    fun stored entry hstored hentry => ?_⟩
  obtain ⟨others, hothers, hreads⟩ :=
    storedProps_spec site r.row (hrow ▸ haccepted.schema_eq) hold hstored
  obtain ⟨others', index, hreads', hindex, hmade⟩ := hentry
  obtain rfl := hreads.unique hreads'
  exact hkept others hothers entry index hindex hmade

end UpdateVertex

end GraphStore
