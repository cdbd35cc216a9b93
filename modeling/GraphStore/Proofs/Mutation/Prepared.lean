import GraphStore.Proofs.Fanout.Units
import GraphStore.Proofs.Mutation.Refusals
import GraphStore.Proofs.Mutation.Splitting
import GraphStore.Proofs.Outcome

/-!
# What mutations prepare for a partition

Each of the mutations that work on batches prepares for a partition a few writes to it, made of
what it prepared for each of the partition's items, and fails as soon as one of the items does.
-/

namespace GraphStore

variable {node : Node} {layout : SpaceLayout} {part : PartId} {units : List WorkUnit}

/-- A schema that has to be there is that of the catalog. -/
theorem Node.schemaOr_eq_ok {space : SpaceId} {ref : SchemaRef} {missing : ErrorCode} {schema : Schema} :
    node.schemaOr space ref missing = .ok schema ↔ node.catalog.schema? space ref = some schema := by
  unfold Node.schemaOr
  cases node.catalog.schema? space ref with
  | none => exact ⟨nofun, nofun⟩
  | some found =>
    constructor
    · intro h
      cases h
      rfl
    · intro h
      cases h
      rfl

/-- A layout has the width and the indexes of its space. -/
theorem Node.layout_eq_ok {space : SpaceId} {onEdges : Bool} :
    node.layout space onEdges = .ok layout ↔ node.catalog.vidLen space = .ok layout.vidLen ∧
      node.catalog.indexes space onEdges = .ok layout.indexes := by
  unfold Node.layout
  constructor
  · intro h
    split at h
    · cases h
    · cases h
    · next hvidLen hindexes =>
      cases h
      exact ⟨hvidLen, hindexes⟩
  · rintro ⟨hvidLen, hindexes⟩
    rw [hvidLen, hindexes]

/-- A row is written for a request as it is encoded. -/
theorem encodeRow_eq_ok {schema : Schema} {names : List String} {values : List Value}
    {tell : RowFault → ErrorCode} {raw : Bytes} :
    encodeRow schema names values tell = .ok raw ↔ Row.encode schema names values = .ok raw := by
  unfold encodeRow
  cases Row.encode schema names values with
  | error fault => exact ⟨nofun, nofun⟩
  | ok found =>
    constructor
    · intro h
      cases h
      rfl
    · intro h
      cases h
      rfl

namespace AddVertices

variable {req : AddVertices} {vertices : List NewVertex}

/-- What is prepared is one put of the entries of every tag row. -/
theorem prepare_eq_ok : req.prepare node layout part vertices = .ok units ↔
    ∃ batches, List.Forall₂ (fun item batch => req.entries node layout part item = .ok batch)
        (TagItem.ofVertices vertices) batches ∧
      units = [Write.put batches.flatten].map (.write part) :=
  mapM_pure_eq_ok

/-- The entries of a tag row are the row and the row's index entries. -/
theorem entries_eq_ok {item : TagItem} {batch : List Entry} :
    req.entries node layout part item = .ok batch ↔ ∃ schema raw key keys,
      node.catalog.schema? req.space (.tag item.tag) = some schema ∧
      Row.encode schema (req.namesOf item.tag) item.props = .ok raw ∧
      Key.vertex layout.vidLen part item.vid item.tag = .ok key ∧
      Index.entryKeys layout.vidLen part (.tag item.tag) (.vertex item.vid)
        (Props.ofGiven schema (req.namesOf item.tag) item.props) layout.indexes = .ok keys ∧
      batch = (key, raw) :: indexEntries keys := by
  constructor
  · intro h
    obtain ⟨entry, hentry, h⟩ := bind_eq_ok.1 h
    obtain ⟨schema, hschema, hentry⟩ := bind_eq_ok.1 hentry
    obtain ⟨raw, hraw, hentry⟩ := bind_eq_ok.1 hentry
    obtain ⟨key, hkey, hentry⟩ := bind_eq_ok.1 hentry
    cases hentry
    obtain ⟨schema', hschema', h⟩ := bind_eq_ok.1 h
    obtain rfl := Except.ok.inj (hschema.symm.trans hschema')
    obtain ⟨keys, hkeys, h⟩ := bind_eq_ok.1 h
    cases h
    exact ⟨schema, raw, key, keys, Node.schemaOr_eq_ok.1 hschema, encodeRow_eq_ok.1 hraw, hkey,
      hkeys, rfl⟩
  · rintro ⟨schema, raw, key, keys, hschema, hraw, hkey, hkeys, rfl⟩
    have hschemaOr : node.schemaOr req.space (.tag item.tag) .tagNotFound = .ok schema :=
      Node.schemaOr_eq_ok.2 hschema
    have hrow : req.rowEntry node layout part item = .ok (key, raw) :=
      bind_eq_ok.2 ⟨schema, hschemaOr, bind_eq_ok.2 ⟨raw, encodeRow_eq_ok.2 hraw,
        bind_eq_ok.2 ⟨key, hkey, rfl⟩⟩⟩
    exact bind_eq_ok.2 ⟨(key, raw), hrow, bind_eq_ok.2 ⟨schema, hschemaOr,
      bind_eq_ok.2 ⟨keys, hkeys, rfl⟩⟩⟩

/-- Inserting vertices prepares writes. -/
theorem preparesWrites (req : AddVertices) (node : Node) : PreparesWrites (req.prepare node) := by
  intro layout part vertices units h
  obtain ⟨batches, -, rfl⟩ := prepare_eq_ok.1 h
  exact ⟨_, rfl⟩

/-- Inserting vertices calls no failure a success. -/
theorem prepare_truthful (req : AddVertices) (node : Node) (layout : SpaceLayout) (part : PartId)
    (vertices : List NewVertex) : Truthful (req.prepare node layout part vertices) := by
  have hrow (item : TagItem) : Truthful (req.rowEntry node layout part item) :=
    (node.schemaOr_truthful _ _ (by exact ⟨nofun, nofun⟩)).bind fun schema =>
      (encodeRow_truthful schema _ _ fun fault => fault.toErrorCode_truthful false).bind fun _ =>
        (Key.vertex_truthful ..).bind fun _ => .ok _
  refine .bind (.mapM (fun item => ?_) _) fun _ => .ok _
  exact (hrow item).bind fun _ => (node.schemaOr_truthful _ _ (by exact ⟨nofun, nofun⟩)).bind fun _ =>
    (Index.entryKeys_truthful ..).bind fun _ => .ok _

end AddVertices

namespace AddEdges

variable {req : AddEdges} {edges : List NewEdge}

/-- What is prepared is one put of the entries of every edge. -/
theorem prepare_eq_ok : req.prepare node layout part edges = .ok units ↔
    ∃ batches, List.Forall₂ (fun edge batch => req.entries node layout part edge = .ok batch)
        edges batches ∧
      units = [Write.put batches.flatten].map (.write part) :=
  mapM_pure_eq_ok

/-- Inserting edges prepares writes. -/
theorem preparesWrites (req : AddEdges) (node : Node) : PreparesWrites (req.prepare node) := by
  intro layout part edges units h
  obtain ⟨batches, -, rfl⟩ := prepare_eq_ok.1 h
  exact ⟨_, rfl⟩

/-- Inserting edges calls no failure a success. -/
theorem prepare_truthful (req : AddEdges) (node : Node) (layout : SpaceLayout) (part : PartId)
    (edges : List NewEdge) : Truthful (req.prepare node layout part edges) := by
  refine .bind (.mapM (fun edge => ?_) _) fun _ => .ok _
  exact (node.schemaOr_truthful _ _ (by exact ⟨nofun, nofun⟩)).bind fun schema =>
    (encodeRow_truthful schema _ _ fun fault => fault.toErrorCode_truthful true).bind fun _ =>
      (Key.edge_truthful ..).bind fun _ => (Index.entryKeys_truthful ..).bind fun _ => .ok _

/-- The entries of an edge are its row and the row's index entries. -/
theorem entries_eq_ok {edge : NewEdge} {batch : List Entry} :
    req.entries node layout part edge = .ok batch ↔ ∃ schema raw key keys,
      node.catalog.schema? req.space (.edge edge.key.edgeType) = some schema ∧
      Row.encode schema req.propNames edge.props = .ok raw ∧
      Key.edge layout.vidLen part edge.key = .ok key ∧
      Index.entryKeys layout.vidLen part (.edge edge.key.edgeType) (.edge edge.key)
        (Props.ofGiven schema req.propNames edge.props) layout.indexes = .ok keys ∧
      batch = (key, raw) :: indexEntries keys := by
  constructor
  · intro h
    obtain ⟨schema, hschema, h⟩ := bind_eq_ok.1 h
    obtain ⟨raw, hraw, h⟩ := bind_eq_ok.1 h
    obtain ⟨key, hkey, h⟩ := bind_eq_ok.1 h
    obtain ⟨keys, hkeys, h⟩ := bind_eq_ok.1 h
    cases h
    exact ⟨schema, raw, key, keys, Node.schemaOr_eq_ok.1 hschema, encodeRow_eq_ok.1 hraw, hkey,
      hkeys, rfl⟩
  · rintro ⟨schema, raw, key, keys, hschema, hraw, hkey, hkeys, rfl⟩
    exact bind_eq_ok.2 ⟨schema, Node.schemaOr_eq_ok.2 hschema, bind_eq_ok.2
      ⟨raw, encodeRow_eq_ok.2 hraw, bind_eq_ok.2 ⟨key, hkey, bind_eq_ok.2 ⟨keys, hkeys, rfl⟩⟩⟩⟩

/-- An edge is ready when its destination has a partition and its entries can be made. -/
theorem readyEdge_eq_ok {edge : NewEdge} {ready : ReadyEdge} :
    req.readyEdge node layout part edge = .ok ready ↔
      node.placement.locate req.space edge.key.dst = .ok ready.target ∧
      req.entries node layout part edge = .ok (ready.row :: ready.indexEntries) := by
  constructor
  · intro h
    obtain ⟨htarget, hschema, hraw, hkey, hkeys⟩ := EdgeContext.readyEdge_eq_ok.1 h
    exact ⟨htarget, entries_eq_ok.2 ⟨_, _, _, _, hschema, hraw, hkey, hkeys, rfl⟩⟩
  · obtain ⟨target, row, entries⟩ := ready
    rintro ⟨htarget, hentries⟩
    obtain ⟨schema, raw, key, keys, hschema, hraw, hkey, hkeys, hready⟩ :=
      entries_eq_ok.1 hentries
    obtain ⟨rfl, rfl⟩ := List.cons.inj hready
    exact EdgeContext.readyEdge_eq_ok.2 (.intro htarget hschema hraw hkey hkeys)

/-- What is staged are the groups of the edges made ready. -/
theorem stage_eq_ok {staged : PartMap Staged} : req.stage node layout part edges = .ok staged ↔
    ∃ ready, List.Forall₂ (fun edge ready => req.readyEdge node layout part edge = .ok ready)
        edges ready ∧
      staged = Staged.ofEdges ready :=
  mapM_pure_eq_ok

/-- Staging edges calls no failure a success. -/
theorem stage_truthful (req : AddEdges) (node : Node) (layout : SpaceLayout) (part : PartId)
    (edges : List NewEdge) : Truthful (req.stage node layout part edges) :=
  EdgeContext.stage_truthful ..

end AddEdges

namespace DeleteVertices

variable {req : DeleteVertices} {vids : List VertexId}

/-- The writes that remove vertices: a range for each, and the index keys of all of them. -/
def removalWrites (removals : List (Bytes × List Bytes)) : List Write :=
  removals.map (fun (stem, _) => .removeRange stem (Key.upperBound stem)) ++
    if (removals.flatMap (·.2)).isEmpty then [] else [.remove (removals.flatMap (·.2))]

/-- What is prepared removes every vertex. -/
theorem prepare_eq_ok : req.prepare node layout part vids = .ok units ↔
    ∃ removals, List.Forall₂ (fun vid removal => req.removal node layout part vid = .ok removal)
        vids removals ∧
      units = (removalWrites removals).map (.write part) := by
  have hunits (removals : List (Bytes × List Bytes)) :
      (if (removals.flatMap (·.2)).isEmpty then
          removals.map fun (stem, _) => WorkUnit.write part (.removeRange stem (Key.upperBound stem))
        else
          (removals.map fun (stem, _) =>
            WorkUnit.write part (.removeRange stem (Key.upperBound stem))) ++
            [.write part (.remove (removals.flatMap (·.2)))]) =
        (removalWrites removals).map (.write part) := by
    rw [removalWrites, List.map_append, List.map_map]
    split
    · exact (List.append_nil _).symm
    · rfl
  rw [prepare]
  simp only [hunits]
  exact mapM_pure_eq_ok

/-- Deleting vertices prepares writes. -/
theorem preparesWrites (req : DeleteVertices) (node : Node) :
    PreparesWrites (req.prepare node) := by
  intro layout part vids units h
  obtain ⟨removals, -, rfl⟩ := prepare_eq_ok.1 h
  exact ⟨_, rfl⟩

/-- Without index keys only ranges are removed. -/
theorem removalWrites_of_nil {removals : List (Bytes × List Bytes)}
    (h : ∀ removal ∈ removals, removal.2 = []) : removalWrites removals =
      removals.map fun (stem, _) => .removeRange stem (Key.upperBound stem) := by
  have hnil : removals.flatMap (·.2) = [] := List.flatMap_eq_nil_iff.2 h
  rw [removalWrites, hnil]
  exact List.append_nil _

/-- Removing vertices removes their ranges, then their index keys. -/
theorem applyAll_removalWrites (removals : List (Bytes × List Bytes)) (p : Partition) :
    Write.applyAll (removalWrites removals) p =
      (removals.foldl (fun p (stem, _) => p.removeRange stem (Key.upperBound stem)) p).remove
        (removals.flatMap (·.2)) := by
  have hranges : Write.applyAll
      (removals.map fun (stem, _) => .removeRange stem (Key.upperBound stem)) p =
        removals.foldl (fun p (stem, _) => p.removeRange stem (Key.upperBound stem)) p := by
    rw [Write.applyAll, List.foldl_map]
    rfl
  rw [Write.applyAll] at hranges
  rw [Write.applyAll, removalWrites, List.foldl_append, hranges]
  split
  · next hempty =>
    rw [List.isEmpty_iff.1 hempty]
    rfl
  · rfl

/-- The rows of a vertex are refused with the store's refusal. -/
theorem storedRows_truthful (req : DeleteVertices) (node : Node) (layout : SpaceLayout)
    (part : PartId) (stem : Bytes) : Truthful (req.storedRows node layout part stem) := by
  unfold storedRows
  split
  · exact .ok _
  · split
    · exact .ok _
    · next hscan => exact node.read_truthful req.space part (·.scan stem) hscan

/-- Deleting vertices calls no failure a success. -/
theorem prepare_truthful (req : DeleteVertices) (node : Node) (layout : SpaceLayout)
    (part : PartId) (vids : List VertexId) : Truthful (req.prepare node layout part vids) := by
  have hkeys (vid : VertexId) (row : TagId × Bytes) :
      Truthful (req.indexKeys node layout part vid row) := by
    unfold indexKeys
    split
    · exact .ok _
    · split
      · exact .ok _
      · exact Index.entryKeys_truthful ..
  refine .bind (.mapM (fun vid => ?_) _) fun _ => .ok _
  exact (Key.vertexStem_truthful ..).bind fun stem =>
    (storedRows_truthful req node layout part stem).bind fun _ =>
      (Truthful.mapM (hkeys vid) _).bind fun _ => .ok _

end DeleteVertices

namespace DeleteEdges

variable {req : DeleteEdges} {edges : List EdgeKey}

/-- What is prepared is one removal of the keys of every edge. -/
theorem prepare_eq_ok : req.prepare node layout part edges = .ok units ↔
    ∃ keys, List.Forall₂ (fun edge keys => req.removal node layout part edge = .ok keys)
        edges keys ∧
      units = [Write.remove keys.flatten].map (.write part) :=
  mapM_pure_eq_ok

/-- Deleting edges prepares writes. -/
theorem preparesWrites (req : DeleteEdges) (node : Node) : PreparesWrites (req.prepare node) := by
  intro layout part edges units h
  obtain ⟨keys, -, rfl⟩ := prepare_eq_ok.1 h
  exact ⟨_, rfl⟩

/-- Deleting edges calls no failure a success. -/
theorem prepare_truthful (req : DeleteEdges) (node : Node) (layout : SpaceLayout) (part : PartId)
    (edges : List EdgeKey) : Truthful (req.prepare node layout part edges) := by
  have hkeys (edge : EdgeKey) (key : Bytes) :
      Truthful (req.indexKeys node layout part edge key) := by
    unfold indexKeys
    split
    · exact .ok _
    · split
      · next hget => exact node.read_truthful req.space part (·[key]?) hget
      · exact .ok _
      · exact .ok _
      · split
        · exact .ok _
        · exact Index.entryKeys_truthful ..
  refine .bind (.mapM (fun edge => ?_) _) fun _ => .ok _
  exact (Key.edge_truthful ..).bind fun key => (hkeys edge key).bind fun _ => .ok _

end DeleteEdges

end GraphStore
