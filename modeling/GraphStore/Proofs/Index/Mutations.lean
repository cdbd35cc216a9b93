import GraphStore.Proofs.Index.Removal

/-!
# Mutations as changes of partitions

Each mutation changes a partition, if it changes it at all, by a put of rows with their entries, by
the replacement of one row, or by a removal of rows with their entries.
-/

namespace GraphStore

namespace BatchMutation

variable {node : Node} {m : BatchMutation} {part : PartId}

/-- Whether every double that a mutation gives is finite. -/
def Finite : BatchMutation → Prop
  | addVertices req => ∀ (part : PartId) (vertices : List NewVertex),
    req.parts[part]? = some vertices →
      ∀ item ∈ TagItem.ofVertices vertices, Row.Finite item.props
  | addEdges req => ∀ (part : PartId) (edges : List NewEdge), req.parts[part]? = some edges →
    ∀ edge ∈ edges, Row.Finite edge.props
  | addEdgesChained req _ => ∀ (part : PartId) (edges : List NewEdge),
    req.parts[part]? = some edges → ∀ edge ∈ edges, Row.Finite edge.props
  | deleteVertices _ => True
  | deleteEdges _ => True

/-- The rows that an insert puts into a partition. -/
def rows : BatchMutation → PartId → List RowId
  | addVertices req, part =>
    (TagItem.ofVertices ((req.parts[part]?).getD [])).map fun item => .tag item.vid item.tag
  | addEdges req, part => ((req.parts[part]?).getD []).map fun edge => .edge edge.key
  | addEdgesChained req _, part => ((req.parts[part]?).getD []).map fun edge => .edge edge.key
  | deleteVertices _, _ => []
  | deleteEdges _, _ => []

/-- What an insert puts are its rows with their entries. -/
theorem Puts.madeOf (hsound : node.catalog.Sound) (hfinite : m.Finite) {batch : List Entry}
    (h : Puts node m part batch) {vidLen : Nat}
    (hvidLen : node.catalog.vidLen m.space = .ok vidLen) :
    ∃ rows, Site.MadeOf ⟨node.catalog, m.space, vidLen, part⟩ batch rows ∧
      rows.map (·.row) = m.rows part := by
  cases h with
  | addVertices hlayout hitems hbatches =>
    obtain rfl := vidLen_of_layout hlayout hvidLen
    rw [rows, hitems]
    refine Site.madeOf_flatten (List.forall₂_map_left_iff.2 ?_)
    refine ((List.forall₂_and_left _ _).2 ⟨hfinite _ _ hitems, hbatches⟩).imp ?_
    rintro item batch ⟨hitem, hmade⟩
    exact AddVertices.full_of_entries hsound hlayout hitem hmade
  | addEdges hlayout hitems hbatches =>
    obtain rfl := vidLen_of_layout hlayout hvidLen
    rw [rows, hitems]
    refine Site.madeOf_flatten (List.forall₂_map_left_iff.2 ?_)
    refine ((List.forall₂_and_left _ _).2 ⟨hfinite _ _ hitems, hbatches⟩).imp ?_
    rintro edge batch ⟨hedge, hmade⟩
    exact AddEdges.full_of_entries hsound hlayout hedge hmade
  | @addEdgesChained req schedule layout part edges ready order hlayout hitems hready horder =>
    obtain rfl := vidLen_of_layout hlayout hvidLen
    have hfull : List.Forall₂ (fun row batch => ∃ r : FullRow,
        Site.IsFull ⟨node.catalog, req.space, layout.vidLen, part⟩ r ∧ r.row = row ∧ batch = r.entries)
        (edges.map fun edge => .edge edge.key)
        (ready.map fun edge => edge.row :: edge.indexEntries) := by
      refine List.forall₂_map_left_iff.2 (List.forall₂_map_right_iff.2 ?_)
      refine ((List.forall₂_and_left _ _).2 ⟨hfinite _ _ hitems, hready⟩).imp ?_
      rintro edge ready' ⟨hedge, hmade⟩
      exact AddEdges.full_of_readyEdge hsound hlayout hedge hmade
    rw [rows, hitems]
    obtain ⟨rows, hrows, hnamed⟩ := Site.madeOf_flatten hfull
    refine ⟨rows, ⟨hrows.full, fun entry => ?_⟩, hnamed⟩
    -- The chains have the same entries as the edges, in another order.
    have hchains : entry ∈ order.flatMap (·.batch) ↔
        ∃ chain ∈ AddEdges.chainsOf part (Staged.ofEdges ready), entry ∈ chain.batch := by
      simp only [List.mem_flatMap, horder.mem_iff]
    rw [hchains, AddEdges.mem_batch_chainsOf, ← hrows.mem_iff, ← List.flatMap_def, List.mem_flatMap]

/-- The whole of a batch changes a partition by a put or by a removal. -/
theorem Whole.change (hsound : node.catalog.Sound) (hfinite : m.Finite)
    {change : Partition → Partition} (h : Whole node m part change) {p : Partition}
    (hp : node.store.parts[(⟨m.space, part⟩ : Address)]? = some p) {vidLen : Nat}
    (hvidLen : node.catalog.vidLen m.space = .ok vidLen) :
    Site.Change ⟨node.catalog, m.space, vidLen, part⟩ p (change p) := by
  cases h with
  | put hputs =>
    obtain ⟨rows, hrows, -⟩ := hputs.madeOf hsound hfinite hvidLen
    exact .put hrows
  | deleteVertices hlayout hitems hremovals =>
    have hloses := (Whole.deleteVertices hlayout hitems hremovals).loses rfl hp hvidLen
    exact .shrink (hloses.shrinks hsound.registered)
  | deleteEdges hlayout hitems hremovals =>
    have hloses := (Whole.deleteEdges hlayout hitems hremovals).loses rfl hp hvidLen
    exact .shrink (hloses.shrinks hsound.registered)

/-- Nothing is applied in a space without a width for vertex ids. -/
theorem Whole.vidLen {change : Partition → Partition} (h : Whole node m part change) :
    ∃ vidLen, node.catalog.vidLen m.space = .ok vidLen := by
  cases h with
  | put hputs =>
    cases hputs with
    | addVertices hlayout _ _ => exact ⟨_, (Node.layout_eq_ok.1 hlayout).1⟩
    | addEdges hlayout _ _ => exact ⟨_, (Node.layout_eq_ok.1 hlayout).1⟩
    | addEdgesChained hlayout _ _ _ => exact ⟨_, (Node.layout_eq_ok.1 hlayout).1⟩
  | deleteVertices hlayout _ _ => exact ⟨_, (Node.layout_eq_ok.1 hlayout).1⟩
  | deleteEdges hlayout _ _ => exact ⟨_, (Node.layout_eq_ok.1 hlayout).1⟩

end BatchMutation

namespace Node

variable {node : Node} {req : UpdateVertex}

/-- An update that does not write leaves the node as it is. -/
theorem updateVertex_of_not_write
    (h : ∀ removes puts props inserted,
      req.prepare node ≠ .ok (.write removes puts props inserted)) :
    (node.updateVertex req).1 = node := by
  unfold updateVertex
  split
  · rfl
  · rfl
  · next hwrite => exact absurd hwrite (h _ _ _ _)

/-- An update that writes forgets the cached row and replaces the row as one write. -/
theorem updateVertex_of_write {removes : List Bytes} {puts : List Entry} {props : Props}
    {inserted : Bool} (h : req.prepare node = .ok (.write removes puts props inserted)) :
    (node.updateVertex req).1 =
      ((node.evict [{ space := req.space, vid := req.vertex, tag := req.tag }]).perform req.space
        req.part (.replace removes puts)).1 := by
  unfold updateVertex
  rw [h]
  rfl

/-- An update leaves each partition as it is, or replaces one row with its entries. -/
theorem updateVertex_content (req : UpdateVertex) {addr : Address} {after : Partition}
    (hafter : (node.updateVertex req).1.store.parts[addr]? = some after) :
    ∃ p, node.store.parts[addr]? = some p ∧ (after = p ∨ addr = ⟨req.space, req.part⟩ ∧
      ∃ removes props inserted, ∃ r : FullRow, r.row = .tag req.vertex req.tag ∧
        req.prepare node = .ok (.write removes r.entries props inserted) ∧
        (∃ vidLen, node.catalog.vidLen req.space = .ok vidLen ∧
          Site.Replaces ⟨node.catalog, req.space, vidLen, req.part⟩ p removes r) ∧
        after = (p.remove removes).put r.entries) := by
  by_cases hwrite : ∃ removes puts props inserted,
      req.prepare node = .ok (.write removes puts props inserted)
  · obtain ⟨removes, puts, props, inserted, hprepare⟩ := hwrite
    have hparts : (node.updateVertex req).1.store.parts[addr]? =
        if addr = ⟨req.space, req.part⟩ ∧ node.Writable addr then
          node.store.parts[addr]?.map fun p => (p.remove removes).put puts
        else node.store.parts[addr]? := by
      rw [updateVertex_of_write hprepare, perform_parts]
      rfl
    rw [hafter] at hparts
    split at hparts
    · next hopen =>
      obtain ⟨rfl, hwritable⟩ := hopen
      obtain ⟨p, hp, rfl⟩ := Option.map_eq_some_iff.1 hparts.symm
      obtain ⟨vidLen, hvidLen, r, hrow, hfull, rfl, hremoves, hold⟩ :=
        UpdateVertex.prepare_write hprepare
      refine ⟨p, hp, .inr ⟨rfl, removes, props, inserted, r, hrow, hprepare,
        ⟨vidLen, hvidLen, hfull, hremoves, ?_⟩, rfl⟩⟩
      refine fun old entry hget hentry => hold old entry ?_ hentry
      unfold get reading Store.get Store.read
      rw [if_neg hwritable.1, hp, ← hget]
    · exact ⟨after, hparts.symm, .inl rfl⟩
  · rw [updateVertex_of_not_write fun removes puts props inserted h =>
      hwrite ⟨removes, puts, props, inserted, h⟩] at hafter
    exact ⟨after, hafter, .inl rfl⟩

end Node

end GraphStore
