import GraphStore.Proofs.Cache.Rows
import GraphStore.Proofs.Run.Event

/-!
# Which cached rows a step forgets

A mutation forgets a row of a vertex before it changes it: an insertion forgets all rows that it puts,
a deletion all stored rows of the vertices it deletes, and an update its one row. So whatever row a
step changes, it has forgotten.
-/

namespace GraphStore

/-- What one partition of a request adds to a list is in the list. -/
theorem mem_gather {α β : Type} {parts : PartMap α} {layout : SpaceLayout}
    {add : SpaceLayout → PartId → α → List β} {part : PartId} {items : α}
    (hitems : parts[part]? = some items) {found : β} (h : found ∈ add layout part items) :
    found ∈ gather (.ok layout) parts add :=
  List.mem_flatMap.2 ⟨(part, items), Std.ExtTreeMap.mem_toList_iff_getElem?_eq_some.2 hitems, h⟩

/-- Where no element fails the test, all are taken. -/
theorem takeThrough_eq_self {α : Type} {p : α → Bool} {items : List α}
    (h : ∀ item ∈ items, p item = true) : takeThrough p items = items := by
  induction items with
  | nil => rfl
  | cons item items ih =>
    rw [takeThrough, if_pos (h item List.mem_cons_self),
      ih fun other hother => h other (List.mem_cons_of_mem _ hother)]

/-- An insertion whose batch is prepared forgets every row of it. -/
theorem AddVertices.mem_evicted {req : AddVertices} {node : Node} {layout : SpaceLayout}
    {part : PartId} {vertices : List NewVertex} {batches : List (List Entry)}
    (hbatches : List.Forall₂ (fun item batch => req.entries node layout part item = .ok batch)
      (TagItem.ofVertices vertices) batches) {item : TagItem}
    (hitem : item ∈ TagItem.ofVertices vertices) :
    { space := req.space, vid := item.vid, tag := item.tag } ∈
      req.evicted node layout part vertices := by
  have hentries (item : TagItem) (hitem : item ∈ TagItem.ofVertices vertices) :
      (req.entries node layout part item).isOk = true := by
    obtain ⟨batch, -, hbatch⟩ := exists_of_forall₂_left hbatches hitem
    rw [hbatch]
    rfl
  have hrow : (req.rowEntry node layout part item).isOk = true := by
    obtain ⟨batch, -, hbatch⟩ := exists_of_forall₂_left hbatches hitem
    obtain ⟨entry, hentry, -⟩ := bind_eq_ok.1 hbatch
    rw [hentry]
    rfl
  rw [evicted, takeThrough_eq_self hentries]
  exact List.mem_map.2 ⟨item, List.mem_filter.2 ⟨hitem, hrow⟩, rfl⟩

/-- A deletion whose removals are prepared forgets every stored row of its vertices. -/
theorem DeleteVertices.mem_evicted {req : DeleteVertices} {node : Node} {layout : SpaceLayout}
    {part : PartId} {vids : List VertexId} {removals : List (Bytes × List Bytes)}
    (hremovals : List.Forall₂ (fun vid removal => req.removal node layout part vid = .ok removal)
      vids removals) (hcache : node.cache.isSome = true) {p : Partition}
    (hp : node.store.parts[(⟨req.space, part⟩ : Address)]? = some p) {vid : VertexId}
    (hvid : vid ∈ vids) {tag : TagId} {key raw : Bytes}
    (hkey : Key.vertex layout.vidLen part vid tag = .ok key) (hraw : p[key]? = some raw) :
    { space := req.space, vid, tag } ∈ req.evicted node layout part vids := by
  have hremoval (vid : VertexId) (hvid : vid ∈ vids) :
      (req.removal node layout part vid).isOk = true := by
    obtain ⟨removal, -, hremoval⟩ := exists_of_forall₂_left hremovals hvid
    rw [hremoval]
    rfl
  rw [evicted, takeThrough_eq_self hremoval]
  refine List.mem_flatMap.2 ⟨vid, hvid, ?_⟩
  obtain ⟨removal, -, hmade⟩ := exists_of_forall₂_left hremovals hvid
  obtain ⟨stem, hstem, hmade⟩ := bind_eq_ok.1 hmade
  obtain ⟨rows, hrows, hmade⟩ := bind_eq_ok.1 hmade
  obtain ⟨keys, hkeys, -⟩ := bind_eq_ok.1 hmade
  have hindexKeys (row : TagId × Bytes) (hrow : row ∈ rows) :
      (req.indexKeys node layout part vid row).isOk = true := by
    obtain ⟨found, -, hfound⟩ := exists_of_forall₂_left (mapM_eq_ok.1 hkeys) hrow
    rw [hfound]
    rfl
  have hread : (Key.vertexStem layout.vidLen part vid).bind (req.storedRows node layout part) =
      .ok rows := by
    rw [hstem]
    exact hrows
  rw [evictedOf, hread]
  dsimp only
  rw [takeThrough_eq_self hindexKeys]
  -- With a cache the rows are read, so the row's own is among them.
  unfold storedRows at hrows
  rw [if_neg (by simp [Option.isNone_eq_false_iff.2 hcache])] at hrows
  split at hrows
  · next stored hscan =>
    cases hrows
    obtain rfl := node.reading_read_eq_ok hp hscan
    exact List.mem_map.2 ⟨(tag, raw), List.mem_filterMap.2 ⟨(key, raw),
      Partition.mem_scan.2 ⟨hraw, Key.stem_prefix hstem hkey⟩,
      congrArg (Option.map fun tag => (tag, raw)) (Key.tagOfVertex?_of_vertex hkey)⟩, rfl⟩
  · cases hrows

namespace BatchMutation

variable {node : Node} {m : BatchMutation} {part : PartId}

/-- The rows that a mutation forgets. -/
def evictions (node : Node) : BatchMutation → List CacheKey
  | addVertices req => gather (node.layout req.space false) req.parts (req.evicted node)
  | deleteVertices req => gather (node.layout req.space false) req.parts (req.evicted node)
  | _ => []

/-- A mutation changes the cache by forgetting. -/
theorem cache_run (m : BatchMutation) (hwriter : node.chainWriter = .toSource) :
    (m.run node).1.cache = node.cache.map fun cache => (m.evictions node).foldl .evict cache := by
  have hforget (keys : List CacheKey) (units : List WorkUnit) :
      ((if node.cache.isSome then node.evict keys else node).runUnits m.space units).1.cache =
        node.cache.map fun cache => keys.foldl .evict cache := by
    rw [(runUnits_sameSetting ..).cache]
    split
    · rfl
    · next hnone =>
      rw [Option.not_isSome_iff_eq_none.1 hnone]
      rfl
  have hkeep : node.cache = node.cache.map fun cache => [].foldl .evict cache :=
    Option.map_id.symm ▸ rfl
  cases m with
  | addVertices req => exact hforget _ _
  | deleteVertices req => exact hforget _ _
  | addEdges req => exact (runUnits_sameSetting ..).cache.trans hkeep
  | deleteEdges req => exact (runUnits_sameSetting ..).cache.trans hkeep
  | addEdgesChained req schedule =>
    refine Eq.trans ?_ hkeep
    rw [run]
    cases hlayout : node.layout req.space true with
    | error code => rw [node.addEdgesChained_of_error req schedule hlayout]
    | ok layout =>
      obtain ⟨order, -, hnode, -⟩ := node.addEdgesChained_of_ok req schedule hwriter hlayout
      rw [hnode]
      exact (Node.writeInOrder_spec req.space layout.vidLen (!layout.indexes.isEmpty) hwriter
        order).2.1.cache

/-- A batch that takes effect has forgotten the stored rows it names. -/
theorem Whole.evicts {change : Partition → Partition} (h : Whole node m part change)
    (hcache : node.cache.isSome = true) {p : Partition}
    (hp : node.store.parts[(⟨m.space, part⟩ : Address)]? = some p) {vidLen : Nat}
    (hvidLen : node.catalog.vidLen m.space = .ok vidLen) {vid : VertexId} {tag : TagId}
    (hnames : m.Names part (.tag vid tag)) {key raw : Bytes}
    (hkey : Key.vertex vidLen part vid tag = .ok key) (hraw : p[key]? = some raw) :
    { space := m.space, vid, tag } ∈ m.evictions node := by
  cases hnames with
  | tagRow hitems hitem =>
    cases h with
    | put hputs =>
      cases hputs with
      | addVertices hlayout hitems' hbatches =>
        obtain rfl := Option.some.inj (hitems.symm.trans hitems')
        rw [evictions, hlayout]
        exact mem_gather hitems (AddVertices.mem_evicted hbatches hitem)
  | deletedVertex hitems hvid =>
    cases h with
    | put hputs => cases hputs
    | deleteVertices hlayout hitems' hremovals =>
      obtain rfl := Option.some.inj (hitems.symm.trans hitems')
      obtain rfl := vidLen_of_layout hlayout hvidLen
      rw [evictions, hlayout]
      exact mem_gather hitems (DeleteVertices.mem_evicted hremovals hcache hp hvid hkey hraw)

end BatchMutation

namespace Event

variable {node : Node} {event : Event} {addr : Address} {p after : Partition}

/-- The rows that a step forgets. An update forgets its row when it writes. -/
def evictions (node : Node) : Event → List CacheKey
  | batch m => m.evictions node
  | update req =>
    match req.prepare node with
    | .ok (.write _ _ _ _) => [{ space := req.space, vid := req.vertex, tag := req.tag }]
    | _ => []
  | _ => []

/-- A step other than a lookup changes the cache by forgetting. -/
theorem cache_run (hwriter : node.chainWriter = .toSource)
    (hlookup : ∀ req order, event ≠ .lookup req order) :
    (event.run node).1.cache =
      node.cache.map fun cache => (event.evictions node).foldl .evict cache := by
  have hkeep : node.cache = node.cache.map fun cache => [].foldl .evict cache :=
    Option.map_id.symm ▸ rfl
  cases event with
  | batch m => exact m.cache_run hwriter
  | lookup req order => exact absurd rfl (hlookup req order)
  | update req =>
    rw [run, evictions]
    split
    · next hprepare =>
      rw [Node.updateVertex_of_write hprepare, (Node.perform_sameSetting ..).cache]
      rfl
    · next hnot => rw [Node.updateVertex_of_not_write hnot, ← hkeep]
  | addPart => exact hkeep
  | failPart => exact hkeep
  | healPart => exact hkeep
  | clearLeader => exact hkeep

/-- A step that changes a partition has forgotten the stored rows it names. -/
theorem Effect.evicts (h : event.Effect node addr p after) (hcache : node.cache.isSome = true)
    (hp : node.store.parts[addr]? = some p) {vidLen : Nat}
    (hvidLen : node.catalog.vidLen addr.space = .ok vidLen) {vid : VertexId} {tag : TagId}
    (hnames : event.Names addr (.tag vid tag)) {key raw : Bytes}
    (hkey : Key.vertex vidLen addr.part vid tag = .ok key) (hraw : p[key]? = some raw) :
    after = p ∨ { space := addr.space, vid, tag } ∈ event.evictions node := by
  cases h with
  | same => exact .inl rfl
  | whole hwhole =>
    cases hnames with
    | batch hnames => exact .inr (hwhole.evicts hcache hp hvidLen hnames hkey hraw)
  | replaced _ _ hprepare _ =>
    cases hnames
    rw [evictions, hprepare]
    exact .inr (List.mem_singleton_self _)

end Event

end GraphStore
