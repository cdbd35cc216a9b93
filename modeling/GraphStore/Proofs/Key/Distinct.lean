import GraphStore.Proofs.Index.RowId
import GraphStore.Proofs.Key.Padding

/-!
# Which entities share a key

Padding is all that keys lose of an entity. Two entities of one kind have the same key in a
partition just when they are the same once the zero characters at the end of their ids are dropped,
and rows of different kinds never have the same key.
-/

namespace GraphStore

/-- An edge between ends without zero characters behind them. -/
def EdgeKey.unpadded (e : EdgeKey) : EdgeKey :=
  { e with src := VertexId.unpadded e.src, dst := VertexId.unpadded e.dst }

/-- An entity whose ids have no zero characters behind them. -/
def Entity.unpadded : Entity → Entity
  | .vertex vid => .vertex (VertexId.unpadded vid)
  | .edge e => .edge e.unpadded

/-- What a row describes, with ids that have no zero characters behind them. -/
def RowId.unpadded : RowId → RowId
  | .tag vid id => .tag (VertexId.unpadded vid) id
  | .edge e => .edge e.unpadded

variable {vidLen : Nat} {part : PartId} {vid other : VertexId} {tag otherTag : TagId}
  {e f : EdgeKey} {key otherKey : Bytes}

/-- Edges are the same up to padding when their parts are. -/
theorem EdgeKey.unpadded_eq_iff : e.unpadded = f.unpadded ↔
    VertexId.unpadded e.src = VertexId.unpadded f.src ∧ e.edgeType = f.edgeType ∧
      e.ranking = f.ranking ∧ VertexId.unpadded e.dst = VertexId.unpadded f.dst := by
  simp only [EdgeKey.unpadded, EdgeKey.mk.injEq]

namespace Key

/-- Tag rows have the same key when they are of the same tag and of vertices that are the same up to
padding. -/
theorem vertex_eq_iff (h : vertex vidLen part vid tag = .ok key)
    (h' : vertex vidLen part other otherTag = .ok otherKey) :
    key = otherKey ↔ VertexId.unpadded vid = VertexId.unpadded other ∧ tag = otherTag := by
  obtain ⟨padded, hpad, -⟩ := vertex_eq_ok.1 h
  obtain ⟨padded', hpad', -⟩ := vertex_eq_ok.1 h'
  rw [← padVid_eq_iff hpad hpad']
  constructor
  · rintro rfl
    exact vertex_inj h h'
  · rintro ⟨hsame, rfl⟩
    exact Except.ok.inj (h.symm.trans ((vertex_congr hsame part tag).trans h'))

/-- Edge rows have the same key when they are of edges that are the same up to padding. -/
theorem edge_eq_iff (h : edge vidLen part e = .ok key) (h' : edge vidLen part f = .ok otherKey) :
    key = otherKey ↔ e.unpadded = f.unpadded := by
  obtain ⟨src, dst, hsrc, hdst, -⟩ := edge_eq_ok.1 h
  obtain ⟨src', dst', hsrc', hdst', -⟩ := edge_eq_ok.1 h'
  rw [EdgeKey.unpadded_eq_iff, ← padVid_eq_iff hsrc hsrc', ← padVid_eq_iff hdst hdst']
  constructor
  · rintro rfl
    obtain ⟨hsrcs, hdsts, htype, hranking⟩ := edge_inj h h'
    exact ⟨hsrcs, htype, hranking, hdsts⟩
  · rintro ⟨hsrcs, htype, hranking, hdsts⟩
    have hsame : edge vidLen part e = edge vidLen part f := by
      simp only [edge, hsrcs, hdsts, htype, hranking]
    exact Except.ok.inj (h.symm.trans (hsame.trans h'))

end Key

namespace IndexLayout

variable {layout : IndexLayout} {values : List Value} {entity otherEntity : Entity}
  {raw otherRaw : Bytes}

/-- Entities of an index have the same bytes when they are the same up to padding, provided that
edges are of the index's type. -/
theorem encodeEntity_eq_iff (h : layout.encodeEntity entity = .ok raw)
    (h' : layout.encodeEntity otherEntity = .ok otherRaw)
    (htype : ∀ e, entity = .edge e → layout.index.owner = .edge e.edgeType)
    (htype' : ∀ e, otherEntity = .edge e → layout.index.owner = .edge e.edgeType) :
    raw = otherRaw ↔ entity.unpadded = otherEntity.unpadded := by
  cases entity with
  | vertex vid =>
    obtain ⟨hedge, hpad⟩ := encodeEntity_vertex.1 h
    cases otherEntity with
    | vertex other =>
      obtain ⟨-, hpad'⟩ := encodeEntity_vertex.1 h'
      rw [Entity.unpadded, Entity.unpadded, Entity.vertex.injEq, ← Key.padVid_eq_iff hpad hpad',
        hpad, hpad', Except.ok.injEq]
    | edge f => cases hedge.symm.trans (encodeEntity_edge.1 h').1
  | edge e =>
    obtain ⟨hedge, src, dst, hsrc, hdst, -⟩ := encodeEntity_edge.1 h
    cases otherEntity with
    | vertex other => cases hedge.symm.trans (encodeEntity_vertex.1 h').1
    | edge f =>
      obtain ⟨-, src', dst', hsrc', hdst', -⟩ := encodeEntity_edge.1 h'
      have hsame : e.edgeType = f.edgeType :=
        SchemaRef.edge.inj ((htype e rfl).symm.trans (htype' f rfl))
      rw [Entity.unpadded, Entity.unpadded, Entity.edge.injEq, EdgeKey.unpadded_eq_iff,
        ← Key.padVid_eq_iff hsrc hsrc', ← Key.padVid_eq_iff hdst hdst']
      constructor
      · rintro rfl
        obtain ⟨hsrcs, hdsts, hranking⟩ := encodeEntity_edge_inj h h'
        exact ⟨hsrcs, hsame, hranking, hdsts⟩
      · rintro ⟨hsrcs, -, hranking, hdsts⟩
        have hbytes : layout.encodeEntity (.edge e) = layout.encodeEntity (.edge f) := by
          simp only [encodeEntity, hedge, hsrcs, hdsts, hranking]
        exact Except.ok.inj (h.symm.trans (hbytes.trans h'))

/-- Entries of an index with the same values have the same key when their entities are the same up
to padding, provided that edges are of the index's type. -/
theorem encodeKey_eq_iff (h : layout.encodeKey part values entity = .ok key)
    (h' : layout.encodeKey part values otherEntity = .ok otherKey)
    (htype : ∀ e, entity = .edge e → layout.index.owner = .edge e.edgeType)
    (htype' : ∀ e, otherEntity = .edge e → layout.index.owner = .edge e.edgeType) :
    key = otherKey ↔ entity.unpadded = otherEntity.unpadded := by
  have hraw := encodeEntity_of_encodeKey h
  have hraw' := encodeEntity_of_encodeKey h'
  rw [← encodeEntity_eq_iff hraw hraw' htype htype']
  constructor
  · rintro rfl
    rfl
  · intro heq
    have hentity : layout.encodeEntity entity = layout.encodeEntity otherEntity := by
      rw [hraw, hraw', heq]
    have hkey : layout.encodeKey part values entity = layout.encodeKey part values otherEntity := by
      simp only [encodeKey, hentity]
    exact Except.ok.inj (h.symm.trans (hkey.trans h'))

end IndexLayout

namespace Site

variable {site : Site} {a b : RowId}

/-- Rows have the same key when they describe the same up to padding. -/
theorem rowKey_eq_iff (h : site.rowKey a = .ok key) (h' : site.rowKey b = .ok otherKey) :
    key = otherKey ↔ a.unpadded = b.unpadded := by
  cases a with
  | tag vid tag =>
    cases b with
    | tag other otherTag =>
      rw [Key.vertex_eq_iff h h', RowId.unpadded, RowId.unpadded, RowId.tag.injEq]
    | edge f =>
      have hne : key ≠ otherKey := by
        rintro rfl
        cases (Key.head?_of_vertex h).symm.trans (Key.head?_of_edge h')
      simp only [hne, RowId.unpadded, reduceCtorEq]
  | edge e =>
    cases b with
    | tag other otherTag =>
      have hne : key ≠ otherKey := by
        rintro rfl
        cases (Key.head?_of_edge h).symm.trans (Key.head?_of_vertex h')
      simp only [hne, RowId.unpadded, reduceCtorEq]
    | edge f => rw [Key.edge_eq_iff h h', RowId.unpadded, RowId.unpadded, RowId.edge.injEq]

end Site

end GraphStore
