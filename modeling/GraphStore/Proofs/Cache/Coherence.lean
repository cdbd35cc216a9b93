import GraphStore.Proofs.Cache.Evictions

/-!
# What is cached is what is stored

When each vertex is always addressed in the one partition that is its home, by its canonical id, each
partition holds rows and index entries of its own vertices only, and each cached row is the one stored
in the vertex's home. Steps that write keep both.
-/

namespace GraphStore

/-- The partition that each vertex of a space belongs to. -/
abbrev Homes := SpaceId → VertexId → PartId

namespace Homes

/-- Whether a vertex id is canonical and belongs to a partition. -/
def Holds (homes : Homes) (addr : Address) (vid : VertexId) : Prop :=
  Canonical vid ∧ homes addr.space vid = addr.part

/-- Whether a row is that of an edge, or of a vertex that belongs to a partition. -/
def HoldsRow (homes : Homes) (addr : Address) : RowId → Prop
  | .tag vid _ => homes.Holds addr vid
  | .edge _ => True

/-- Rows of vertices at home are told apart by their keys. -/
theorem HoldsRow.eq_of_rowKey {homes : Homes} {addr : Address} {site : Site} {row : RowId}
    (h : homes.HoldsRow addr row) {vid : VertexId} {tag : TagId} (hvid : Canonical vid)
    {key : Bytes} (hrow : site.rowKey row = .ok key) (hkey : site.rowKey (.tag vid tag) = .ok key) :
    row = .tag vid tag := by
  cases row with
  | tag other otherTag =>
    obtain ⟨hpad, rfl⟩ := Key.vertex_inj hrow hkey
    obtain ⟨padded, hpadded, -⟩ := Key.vertex_eq_ok.1 hkey
    rw [Key.padVid_inj h.1 hvid (hpad.trans hpadded) hpadded]
  | edge edge =>
    have hhead := (Key.head?_of_edge hrow).symm.trans (Key.head?_of_vertex hkey)
    exact absurd hhead (by decide)

end Homes

/-- Whether a mutation addresses every vertex at home. -/
def BatchMutation.AtHome (homes : Homes) : BatchMutation → Prop
  | addVertices req => ∀ (part : PartId) (vertices : List NewVertex),
    req.parts[part]? = some vertices → ∀ v ∈ vertices, homes.Holds ⟨req.space, part⟩ v.id
  | deleteVertices req => ∀ (part : PartId) (vids : List VertexId),
    req.parts[part]? = some vids → ∀ vid ∈ vids, homes.Holds ⟨req.space, part⟩ vid
  | _ => True

/-- Whether a step addresses every vertex at home. -/
def Event.AtHome (homes : Homes) : Event → Prop
  | batch m => m.AtHome homes
  | update req => homes.Holds ⟨req.space, req.part⟩ req.vertex
  | _ => True

/-- A step at home names rows at home. -/
theorem Event.Names.holdsRow {homes : Homes} {event : Event} {addr : Address} {row : RowId}
    (h : event.Names addr row) (hhome : event.AtHome homes) : homes.HoldsRow addr row := by
  cases h with
  | update => exact hhome
  | batch hnames =>
    cases hnames with
    | tagRow hitems hitem =>
      obtain ⟨v, hv, hitem⟩ := List.mem_flatMap.1 hitem
      obtain ⟨t, -, rfl⟩ := List.mem_map.1 hitem
      exact hhome _ _ hitems v hv
    | deletedVertex hitems hvid => exact hhome _ _ hitems _ hvid
    | _ => trivial

namespace Node

variable {node : Node} {homes : Homes} {event : Event} {addr : Address} {row : RowId} {raw : Bytes}

/-- Whether every partition holds rows and index entries of its own vertices only. -/
def Housed (homes : Homes) (node : Node) : Prop :=
  ∀ (addr : Address) (p : Partition) (vidLen : Nat), node.store.parts[addr]? = some p →
    node.catalog.vidLen addr.space = .ok vidLen →
      Site.OnlyOf ⟨node.catalog, addr.space, vidLen, addr.part⟩ (homes.HoldsRow addr) p

/-- Whether a row is stored in a partition. -/
def Stores (node : Node) (addr : Address) (row : RowId) (raw : Bytes) : Prop :=
  ∃ vidLen p key, node.catalog.vidLen addr.space = .ok vidLen ∧ node.store.parts[addr]? = some p ∧
    Site.rowKey ⟨node.catalog, addr.space, vidLen, addr.part⟩ row = .ok key ∧ p[key]? = some raw

/-- Whether every row in a cache has a canonical id and is stored in the home of its vertex. -/
def Backs (homes : Homes) (node : Node) (cache : Option VertexCache) : Prop :=
  ∀ rows key raw, cache = some rows → VertexCache.row? rows key = some raw →
    Canonical key.vid ∧
      node.Stores ⟨key.space, homes key.space key.vid⟩ (.tag key.vid key.tag) raw

/-- Whether every row in the node's cache is the one that is stored. -/
def Coherent (homes : Homes) (node : Node) : Prop := node.Backs homes node.cache

/-- A step at home keeps every partition to its own vertices. -/
theorem Housed.step {catalog : Catalog} (hsteady : node.Steady catalog) (h : node.Housed homes)
    (hhome : event.AtHome homes) : (event.run node).1.Housed homes := by
  intro addr after vidLen hafter hvidLen
  rw [(hsteady.step event).catalog_eq, ← hsteady.catalog_eq] at hvidLen ⊢
  rcases event.effect hsteady.chainWriter_eq hafter with ⟨-, rfl⟩ | ⟨p, hp, heffect⟩
  · intro key hkey
    simp at hkey
  · exact (h addr p vidLen hp hvidLen).touches (heffect.touches hp hvidLen) fun row hrow =>
      hrow.holdsRow hhome

/-- A step that has not forgotten the cached row of a vertex leaves the stored one as it is. -/
theorem Stores.step {catalog : Catalog} (hsteady : node.Steady catalog)
    (hcache : node.cache.isSome = true) (hhome : event.AtHome homes) {vid : VertexId} {tag : TagId}
    (hvid : Canonical vid) (h : node.Stores addr (.tag vid tag) raw)
    (hkept : { space := addr.space, vid, tag } ∉ event.evictions node) :
    (event.run node).1.Stores addr (.tag vid tag) raw := by
  obtain ⟨vidLen, p, key, hvidLen, hp, hkey, hraw⟩ := h
  have hthere : ((event.run node).1.store.parts[addr]?).isSome = true :=
    event.isSome_parts hsteady.chainWriter_eq (by rw [hp]; rfl)
  obtain ⟨after, hafter⟩ := Option.isSome_iff_exists.1 hthere
  refine ⟨vidLen, after, key, ?_, hafter, ?_, ?_⟩
  · rw [(hsteady.step event).catalog_eq, ← hsteady.catalog_eq, hvidLen]
  · exact hkey
  rcases event.effect hsteady.chainWriter_eq hafter with ⟨hnone, -⟩ | ⟨p', hp', heffect⟩
  · rw [hp] at hnone
    cases hnone
  · obtain rfl := Option.some.inj (hp.symm.trans hp')
    by_cases hnames : event.Names addr (.tag vid tag)
    · rcases heffect.evicts hcache hp hvidLen hnames hkey hraw with rfl | hevicted
      · exact hraw
      · exact absurd hevicted hkept
    · rw [(heffect.touches hp hvidLen).kept (.tag vid tag) key hkey, hraw]
      intro other hother hsame
      rw [(hother.holdsRow hhome).eq_of_rowKey hvid hsame hkey] at hother
      exact hnames hother

/-- A step that is no lookup keeps the cache coherent. -/
theorem Coherent.step {catalog : Catalog} (hsteady : node.Steady catalog) (h : node.Coherent homes)
    (hhome : event.AtHome homes) (hlookup : ∀ req order, event ≠ .lookup req order) :
    (event.run node).1.Coherent homes := by
  intro rows key raw hrows hrow
  rw [event.cache_run hsteady.chainWriter_eq hlookup] at hrows
  obtain ⟨cache, hcache, rfl⟩ := Option.map_eq_some_iff.1 hrows
  obtain ⟨hkept, hrow⟩ := VertexCache.row?_foldl_evict cache _ hrow
  obtain ⟨hvid, hstored⟩ := h cache key raw hcache hrow
  exact ⟨hvid, hstored.step hsteady (by rw [hcache]; rfl) hhome hvid hkept⟩

end Node

end GraphStore
