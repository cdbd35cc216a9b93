import GraphStore.Proofs.Index.Mutations

/-!
# Which rows a mutation touches

A mutation names rows: those it puts, and those of the vertices and edges it deletes. Whatever the
catalog is like, all other rows keep their stored bytes, and no key comes in but those of the named
rows and of their index entries.
-/

namespace GraphStore

namespace Site

variable {site : Site} {rows sort : RowId → Prop} {p after last : Partition} {batch : List Entry}
  {removes : List Bytes}

/-- A change that touches some rows: others stay as they are, and only keys of touched rows and of
their index entries come in. -/
structure Touches (site : Site) (rows : RowId → Prop) (p after : Partition) : Prop where
  kept : ∀ row key, site.rowKey row = .ok key →
    (∀ other, rows other → site.rowKey other ≠ .ok key) → after[key]? = p[key]?
  added : ∀ key ∈ after, key ∈ p ∨ site.KeyOf rows key

/-- A row's key can only belong to a row. -/
theorem KeyOf.row {row : RowId} {key : Bytes} (h : site.KeyOf sort key)
    (hkey : site.rowKey row = .ok key) : ∃ other, sort other ∧ site.rowKey other = .ok key := by
  obtain ⟨other, hother, hrow | hentry⟩ := h
  · exact ⟨other, hother, hrow⟩
  · exact absurd hentry.head? (head?_of_rowKey hkey)

/-- What stays as it is touches nothing. -/
theorem Touches.refl (site : Site) (rows : RowId → Prop) (p : Partition) : site.Touches rows p p where
  kept _ _ _ _ := rfl
  added _ := .inl

/-- A put touches the rows whose keys it has. -/
theorem touches_put (h : ∀ key ∈ Partition.keysOf batch, site.KeyOf rows key) :
    site.Touches rows p (p.put batch) where
  kept row key hkey hother := by
    apply Partition.getElem?_put_of_notMem
    intro hmem
    obtain ⟨other, hrows, hsame⟩ := (h key hmem).row hkey
    exact hother other hrows hsame
  added key hmem := (Partition.mem_put.1 hmem).symm.imp_right (h key)

/-- A removal of keys touches the rows whose keys it has. -/
theorem touches_remove (h : ∀ key ∈ removes, site.KeyOf rows key) :
    site.Touches rows p (p.remove removes) where
  kept row key hkey hother := by
    rw [Partition.getElem?_remove, if_neg]
    intro hmem
    obtain ⟨other, hrows, hsame⟩ := (h key hmem).row hkey
    exact hother other hrows hsame
  added key hmem := by
    obtain ⟨raw, hraw⟩ := Partition.mem_iff_getElem?.1 hmem
    exact .inl (Partition.mem_iff_getElem?.2 ⟨raw, (getElem?_of_remove hraw).2⟩)

/-- A partition that loses entities touches their rows. -/
theorem Loses.touches {gone : Entity → Prop} (h : site.Loses gone p after) :
    site.Touches (fun row => gone row.entity) p after where
  kept row key hkey hother := by
    refine Option.ext fun raw => (h key raw).trans (and_iff_left fun e he => ⟨fun hrange => ?_, ?_⟩)
    · obtain ⟨own, rfl, hown⟩ := hrange.exists_row hkey
      exact hother own he hown
    · exact fun hstored => head?_of_rowKey hkey hstored.head?
  added key hmem := by
    obtain ⟨raw, hraw⟩ := Partition.mem_iff_getElem?.1 hmem
    exact .inl (Partition.mem_iff_getElem?.2 ⟨raw, ((h key raw).1 hraw).1⟩)

/-- Changes one after another touch the same rows as each of them. -/
theorem Touches.trans (h : site.Touches rows p after) (h' : site.Touches rows after last) :
    site.Touches rows p last where
  kept row key hkey hother := (h'.kept row key hkey hother).trans (h.kept row key hkey hother)
  added key hmem := (h'.added key hmem).elim (h.added key) .inr

/-- A change that touches some rows touches no more than others that contain them. -/
theorem Touches.mono {others : RowId → Prop} (h : site.Touches rows p after)
    (hrows : ∀ row, rows row → others row) : site.Touches others p after where
  kept row key hkey hother := h.kept row key hkey fun other hrow => hother other (hrows other hrow)
  added key hmem := (h.added key hmem).imp_right fun ⟨row, hrow, hkey⟩ => ⟨row, hrows row hrow, hkey⟩

/-- A change that touches rows of a sort leaves keys of that sort. -/
theorem OnlyOf.touches (h : site.OnlyOf sort p) (htouches : site.Touches rows p after)
    (hsort : ∀ row, rows row → sort row) : site.OnlyOf sort after := by
  intro key hmem
  rcases htouches.added key hmem with hold | ⟨row, hrow, hkey⟩
  · exact h key hold
  · exact ⟨row, hsort row hrow, hkey⟩

/-- The entries of a row have the keys of the row and of its index entries. -/
theorem keyOf_entries {row : RowId} {key raw : Bytes} {keys : List Bytes} {indexes : List Index}
    {props : Props} (hkey : site.rowKey row = .ok key)
    (hindexes : site.catalog.indexes site.space row.owner.isEdge = .ok indexes)
    (hkeys : Index.entryKeys site.vidLen site.part row.owner row.entity props indexes = .ok keys)
    (hrow : rows row) {entry : Entry} (hmem : entry ∈ (key, raw) :: indexEntries keys) :
    site.KeyOf rows entry.1 := by
  rcases List.mem_cons.1 hmem with rfl | hmem
  · exact ⟨row, hrow, .inl hkey⟩
  · obtain ⟨found, hfound, rfl⟩ := List.mem_map.1 hmem
    obtain ⟨index, hindex, hmade⟩ := (site.entryKeys_spec row hindexes hkeys).2 found hfound
    exact ⟨row, hrow, .inr ⟨index, props, hindex, hmade⟩⟩

end Site

namespace BatchMutation

variable {node : Node} {m : BatchMutation} {part : PartId} {batch : List Entry}

/-- The rows that a mutation puts into a partition, or deletes from it. -/
inductive Names : BatchMutation → PartId → RowId → Prop where
  | tagRow {req : AddVertices} {part : PartId} {vertices : List NewVertex} {item : TagItem}
      (hitems : req.parts[part]? = some vertices) (hitem : item ∈ TagItem.ofVertices vertices) :
      Names (.addVertices req) part (.tag item.vid item.tag)
  | edge {req : AddEdges} {part : PartId} {edges : List NewEdge} {edge : NewEdge}
      (hitems : req.parts[part]? = some edges) (hedge : edge ∈ edges) :
      Names (.addEdges req) part (.edge edge.key)
  | chainedEdge {req : AddEdges} {schedule : List Nat} {part : PartId} {edges : List NewEdge}
      {edge : NewEdge} (hitems : req.parts[part]? = some edges) (hedge : edge ∈ edges) :
      Names (.addEdgesChained req schedule) part (.edge edge.key)
  | deletedVertex {req : DeleteVertices} {part : PartId} {vids : List VertexId} {vid : VertexId}
      (hitems : req.parts[part]? = some vids) (hvid : vid ∈ vids) (tag : TagId) :
      Names (.deleteVertices req) part (.tag vid tag)
  | deletedEdge {req : DeleteEdges} {part : PartId} {edges : List EdgeKey} {edge : EdgeKey}
      (hitems : req.parts[part]? = some edges) (hedge : edge ∈ edges) :
      Names (.deleteEdges req) part (.edge edge)

/-- What an insert puts are the entries of the rows it names. -/
theorem Puts.keyOf {vidLen : Nat} (h : Puts node m part batch)
    (hvidLen : node.catalog.vidLen m.space = .ok vidLen) (key : Bytes)
    (hkey : key ∈ Partition.keysOf batch) :
    Site.KeyOf ⟨node.catalog, m.space, vidLen, part⟩ (m.Names part) key := by
  obtain ⟨entry, hentry, rfl⟩ := List.mem_map.1 hkey
  cases h with
  | @addVertices req layout part vertices batches hlayout hitems hbatches =>
    obtain rfl := vidLen_of_layout hlayout hvidLen
    have hindexes := (Node.layout_eq_ok.1 hlayout).2
    obtain ⟨batch, hbatch, hentry⟩ := List.mem_flatten.1 hentry
    obtain ⟨item, hitem, hmade⟩ := exists_of_forall₂_right hbatches hbatch
    obtain ⟨first, hfirst, hmade⟩ := bind_eq_ok.1 hmade
    obtain ⟨schema, -, hfirst⟩ := bind_eq_ok.1 hfirst
    obtain ⟨raw, -, hfirst⟩ := bind_eq_ok.1 hfirst
    obtain ⟨key, hkey, hfirst⟩ := bind_eq_ok.1 hfirst
    cases hfirst
    obtain ⟨schema, -, hmade⟩ := bind_eq_ok.1 hmade
    obtain ⟨keys, hkeys, hmade⟩ := bind_eq_ok.1 hmade
    cases hmade
    let site : Site := ⟨node.catalog, req.space, layout.vidLen, part⟩
    have hrow : site.rowKey (.tag item.vid item.tag) = .ok key := hkey
    exact Site.keyOf_entries hrow hindexes hkeys (.tagRow hitems hitem) hentry
  | @addEdges req layout part edges batches hlayout hitems hbatches =>
    obtain rfl := vidLen_of_layout hlayout hvidLen
    have hindexes := (Node.layout_eq_ok.1 hlayout).2
    obtain ⟨batch, hbatch, hentry⟩ := List.mem_flatten.1 hentry
    obtain ⟨edge, hedge, hmade⟩ := exists_of_forall₂_right hbatches hbatch
    obtain ⟨schema, raw, key, keys, -, -, hkey, hkeys, rfl⟩ := AddEdges.entries_eq_ok.1 hmade
    let site : Site := ⟨node.catalog, req.space, layout.vidLen, part⟩
    have hrow : site.rowKey (.edge edge.key) = .ok key := hkey
    exact Site.keyOf_entries hrow hindexes hkeys (.edge hitems hedge) hentry
  | @addEdgesChained req schedule layout part edges ready order hlayout hitems hready horder =>
    obtain rfl := vidLen_of_layout hlayout hvidLen
    have hindexes := (Node.layout_eq_ok.1 hlayout).2
    obtain ⟨chain, hchain, hentry⟩ := List.mem_flatMap.1 hentry
    obtain ⟨ready', hready', hentry⟩ :=
      AddEdges.mem_batch_chainsOf.1 ⟨chain, horder.mem_iff.1 hchain, hentry⟩
    obtain ⟨edge, hedge, hmade⟩ := exists_of_forall₂_right hready hready'
    obtain ⟨schema, raw, key, keys, -, -, hkey, hkeys, hmade⟩ :=
      AddEdges.entries_eq_ok.1 (AddEdges.readyEdge_eq_ok.1 hmade).2
    rw [hmade] at hentry
    let site : Site := ⟨node.catalog, req.space, layout.vidLen, part⟩
    have hrowKey : site.rowKey (.edge edge.key) = .ok key := hkey
    exact Site.keyOf_entries hrowKey hindexes hkeys (.chainedEdge hitems hedge) hentry

/-- A mutation names the rows of what it deletes. -/
theorem Deletes.names {row : RowId} (h : m.Deletes part row.entity) : m.Names part row := by
  cases row with
  | tag vid tag =>
    cases h with
    | vertex hitems hvid => exact .deletedVertex hitems hvid tag
  | edge edge =>
    cases h with
    | edge hitems hedge => exact .deletedEdge hitems hedge

/-- The whole of a batch touches the rows that the mutation names. -/
theorem Whole.touches {change : Partition → Partition} (h : Whole node m part change)
    {p : Partition} (hp : node.store.parts[(⟨m.space, part⟩ : Address)]? = some p) {vidLen : Nat}
    (hvidLen : node.catalog.vidLen m.space = .ok vidLen) :
    Site.Touches ⟨node.catalog, m.space, vidLen, part⟩ (m.Names part) p (change p) := by
  cases h with
  | put hputs => exact Site.touches_put (hputs.keyOf hvidLen)
  | deleteVertices hlayout hitems hremovals =>
    have hloses := (Whole.deleteVertices hlayout hitems hremovals).loses rfl hp hvidLen
    exact hloses.touches.mono fun _ hdeleted => hdeleted.names
  | deleteEdges hlayout hitems hremovals =>
    have hloses := (Whole.deleteEdges hlayout hitems hremovals).loses rfl hp hvidLen
    exact hloses.touches.mono fun _ hdeleted => hdeleted.names

end BatchMutation

end GraphStore
