import GraphStore.Key.IndexEntries
import GraphStore.Proofs.Key.IndexKeys
import GraphStore.Storage.Catalog

/-!
# Rows and the keys of their index entries

A stored row describes a tag of a vertex or an edge, and has a key for that. The key of an index
entry tells which row it was made for: the index tells the tag or edge type, and the entity in the
key tells the rest, as far as ids of one padding are told apart at all.
-/

namespace GraphStore

namespace Catalog

/-- What registration makes of an empty catalog. -/
inductive Registered : Catalog → Prop where
  | empty : Registered {}
  | addSpace {catalog : Catalog} (h : Registered catalog) (space : SpaceId) (vidLen : Nat) :
      Registered (catalog.addSpace space vidLen)
  | addTag {catalog : Catalog} (h : Registered catalog) (space : SpaceId) (tag : TagId)
      (name : String) (schema : Schema) : Registered (catalog.addTag space tag name schema)
  | addEdge {catalog : Catalog} (h : Registered catalog) (space : SpaceId) (edge : EdgeType)
      (name : String) (schema : Schema) : Registered (catalog.addEdge space edge name schema)
  | addIndex {catalog : Catalog} (h : Registered catalog) (space : SpaceId) (index : Index) :
      Registered (catalog.addIndex space index)
  | breakListing {catalog : Catalog} (h : Registered catalog) (space : SpaceId) :
      Registered (catalog.breakListing space)

/-- The entry of a space after a change to the entry of some space. -/
theorem entry_modify (catalog : Catalog) (space other : SpaceId)
    (change : SpaceEntry → SpaceEntry) :
    (catalog.modify space change).entry other =
      if other = space then change (catalog.entry space) else catalog.entry other := by
  unfold entry modify
  rw [Std.ExtTreeMap.getElem?_insert]
  by_cases h : other = space
  · rw [if_pos (Std.LawfulEqCmp.compare_eq_iff_eq.2 h.symm), if_pos h]
    rfl
  · rw [if_neg fun heq => h (Std.LawfulEqCmp.compare_eq_iff_eq.1 heq).symm, if_neg h]

/-- Only the registration of an index touches the indexes of a space. -/
theorem indexes_modify (catalog : Catalog) (space other : SpaceId)
    {change : SpaceEntry → SpaceEntry} (h : ∀ e, (change e).indexes = e.indexes) :
    ((catalog.modify space change).entry other).indexes = (catalog.entry other).indexes := by
  rw [entry_modify]
  split
  · next heq => rw [h, heq]
  · rfl

/-- A registered index is found by its own number. -/
theorem Registered.id_eq {catalog : Catalog} (h : catalog.Registered) {space : SpaceId}
    {id : IndexId} {index : Index} (hindex : (catalog.entry space).indexes[id]? = some index) :
    index.id = id := by
  induction h with
  | empty =>
    have hnone : (({} : Catalog).entry space).indexes[id]? = none := by
      simp [entry]
    rw [hnone] at hindex
    cases hindex
  | addSpace _ target vidLen ih =>
    rw [Catalog.addSpace, indexes_modify _ _ _ (by exact fun _ => rfl)] at hindex
    exact ih hindex
  | addTag _ target tag name schema ih =>
    rw [Catalog.addTag, indexes_modify _ _ _ (by exact fun _ => rfl)] at hindex
    exact ih hindex
  | addEdge _ target edge name schema ih =>
    rw [Catalog.addEdge, indexes_modify _ _ _ (by exact fun _ => rfl)] at hindex
    exact ih hindex
  | breakListing _ target ih =>
    rw [Catalog.breakListing, indexes_modify _ _ _ (by exact fun _ => rfl)] at hindex
    exact ih hindex
  | addIndex _ target added ih =>
    rw [Catalog.addIndex, entry_modify] at hindex
    split at hindex
    · next heq =>
      rw [Std.ExtTreeMap.getElem?_insert] at hindex
      split at hindex
      · next hid =>
        cases hindex
        exact Std.LawfulEqCmp.compare_eq_iff_eq.1 hid
      · exact ih (heq ▸ hindex)
    · exact ih hindex

/-- A key belongs to one registered index. -/
theorem Registered.eq_of_stem {catalog : Catalog} (h : catalog.Registered) {space : SpaceId}
    {id otherId : IndexId} {index other : Index}
    (hindex : (catalog.entry space).indexes[id]? = some index)
    (hother : (catalog.entry space).indexes[otherId]? = some other) {part : PartId} {key : Bytes}
    (hstem : Key.indexStem part index.id <+: key) (hstem' : Key.indexStem part other.id <+: key) :
    index = other := by
  have hsame : index.id = other.id := IndexLayout.indexStem_inj hstem hstem'
  rw [h.id_eq hindex, h.id_eq hother] at hsame
  subst hsame
  exact Option.some.inj (hindex.symm.trans hother)

end Catalog

/-- What a stored row describes: a tag of a vertex, or an edge. -/
inductive RowId where
  | tag (vid : VertexId) (tag : TagId)
  | edge (edge : EdgeKey)
  deriving DecidableEq, Repr, Inhabited

namespace RowId

/-- The tag or edge type of a row. -/
def owner : RowId → SchemaRef
  | .tag _ id => .tag id
  | .edge key => .edge key.edgeType

/-- What the index entries of a row point at. -/
def entity : RowId → Entity
  | .tag vid _ => .vertex vid
  | .edge key => .edge key

end RowId

/-- A partition of a space with the width of its vertex ids, and the catalog. -/
structure Site where
  catalog : Catalog
  space : SpaceId
  vidLen : Nat
  part : PartId

namespace Site

variable {site : Site} {a b : RowId} {index other : Index} {props otherProps : Props}
  {key entry : Bytes}

/-- The key of a row. -/
def rowKey (site : Site) : RowId → Except ErrorCode Bytes
  | .tag vid tag => Key.vertex site.vidLen site.part vid tag
  | .edge edge => Key.edge site.vidLen site.part edge

/-- The key of a row's entry in an index. -/
def entryKey (site : Site) (index : Index) (row : RowId) (props : Props) :
    Except ErrorCode Bytes :=
  index.entryKey site.vidLen site.part row.entity props

/-- Whether an index is registered for the tag or edge type of a row. -/
def Indexes (site : Site) (row : RowId) (index : Index) : Prop :=
  index.owner = row.owner ∧ ∃ id : IndexId, (site.catalog.entry site.space).indexes[id]? = some index

/-- An entry's key is made of the values of the index's columns. -/
theorem encodeKey_of_entryKey (h : site.entryKey index a props = .ok entry) :
    IndexLayout.encodeKey ⟨index, site.vidLen⟩ site.part (index.valuesOf props) a.entity =
      .ok entry := h

/-- A row's key is not that of an index entry. -/
theorem head?_of_rowKey (h : site.rowKey a = .ok key) : key.head? ≠ some Key.indexKind := by
  cases a with
  | tag vid tag =>
    rw [Key.head?_of_vertex h]
    decide
  | edge edge =>
    rw [Key.head?_of_edge h]
    decide

/-- An index entry's key is that of an index entry. -/
theorem head?_of_entryKey (h : site.entryKey index a props = .ok entry) :
    entry.head? = some Key.indexKind :=
  IndexLayout.head?_of_indexStem_prefix (IndexLayout.indexStem_prefix (encodeKey_of_entryKey h))

/-- Rows of the same key have the same tag or edge type, and the same bytes in index keys. -/
theorem alike_of_rowKey (h : site.rowKey a = .ok key) (h' : site.rowKey b = .ok key) :
    a.owner = b.owner ∧ ∀ index, IndexLayout.encodeEntity ⟨index, site.vidLen⟩ a.entity =
      IndexLayout.encodeEntity ⟨index, site.vidLen⟩ b.entity := by
  cases a with
  | tag vid tag =>
    cases b with
    | tag vid' tag' =>
      obtain ⟨hvid, htag⟩ := Key.vertex_inj h h'
      refine ⟨congrArg SchemaRef.tag htag, fun index => ?_⟩
      cases hedge : IndexLayout.isEdge ⟨index, site.vidLen⟩ <;>
        simp only [RowId.entity, IndexLayout.encodeEntity, hedge, hvid]
    | edge edge =>
      have hhead := (Key.head?_of_vertex h).symm.trans (Key.head?_of_edge h')
      exact absurd hhead (by decide)
  | edge edge =>
    cases b with
    | tag vid tag =>
      have hhead := (Key.head?_of_edge h).symm.trans (Key.head?_of_vertex h')
      exact absurd hhead (by decide)
    | edge edge' =>
      obtain ⟨hsrc, hdst, htype, hranking⟩ := Key.edge_inj h h'
      refine ⟨congrArg SchemaRef.edge htype, fun index => ?_⟩
      cases hedge : IndexLayout.isEdge ⟨index, site.vidLen⟩ <;>
        simp only [RowId.entity, IndexLayout.encodeEntity, hedge, hsrc, hdst, hranking]

/-- Rows of the same key have the same index keys. -/
theorem entryKey_congr (h : site.rowKey a = .ok key) (h' : site.rowKey b = .ok key)
    (index : Index) (props : Props) : site.entryKey index a props = site.entryKey index b props := by
  have halike := (alike_of_rowKey h h').2 index
  simp only [entryKey, Index.entryKey, IndexLayout.encodeKey, halike]

/-- Rows of the same key have the same indexes. -/
theorem indexes_congr (h : site.rowKey a = .ok key) (h' : site.rowKey b = .ok key) :
    site.Indexes a index ↔ site.Indexes b index := by
  rw [Indexes, Indexes, (alike_of_rowKey h h').1]

/-- A row that has a key has bytes in the keys of its indexes. -/
theorem exists_encodeEntity (h : site.rowKey a = .ok key) (hindex : index.owner = a.owner) :
    ∃ raw, IndexLayout.encodeEntity ⟨index, site.vidLen⟩ a.entity = .ok raw := by
  cases a with
  | tag vid tag =>
    have hedge : IndexLayout.isEdge ⟨index, site.vidLen⟩ = false := by
      rw [IndexLayout.isEdge, hindex]
      rfl
    obtain ⟨padded, hpad, -⟩ := Key.vertex_eq_ok.1 h
    exact ⟨padded, IndexLayout.encodeEntity_vertex.2 ⟨hedge, hpad⟩⟩
  | edge edge =>
    have hedge : IndexLayout.isEdge ⟨index, site.vidLen⟩ = true := by
      rw [IndexLayout.isEdge, hindex]
      rfl
    obtain ⟨src, dst, hsrc, hdst, -⟩ := Key.edge_eq_ok.1 h
    exact ⟨_, IndexLayout.encodeEntity_edge.2 ⟨hedge, src, dst, hsrc, hdst, rfl⟩⟩

/-- A row that has a key has one in an index when the index's columns take its properties. -/
theorem exists_entryKey (h : site.rowKey a = .ok key) (hindex : index.owner = a.owner) :
    (∃ entry, site.entryKey index a props = .ok entry) ↔ ∀ (j : Nat) (column : Column),
      index.columns[j]? = some column →
        IndexLayout.Takes j column ((props.get? column.name).getD .null) := by
  obtain ⟨raw, hraw⟩ := exists_encodeEntity h hindex
  have hlength : (index.valuesOf props).length = index.columns.length := List.length_map _
  refine (IndexLayout.exists_encodeKey hlength hraw).trans ?_
  constructor
  · intro hall j column hcolumn
    exact hall j column _ hcolumn (by rw [Index.valuesOf, List.getElem?_map, hcolumn]; rfl)
  · intro hall j column value hcolumn hvalue
    have hplace : index.columns[j]? = some column := hcolumn
    rw [Index.valuesOf, List.getElem?_map, hplace] at hvalue
    obtain rfl := Option.some.inj hvalue
    exact hall j column hcolumn

/-- Rows of one tag or edge type with the same bytes in the keys of an index have the same key. -/
theorem rowKey_of_encodeEntity (howner : a.owner = b.owner) {raw : Bytes}
    (h : IndexLayout.encodeEntity ⟨index, site.vidLen⟩ a.entity = .ok raw)
    (h' : IndexLayout.encodeEntity ⟨index, site.vidLen⟩ b.entity = .ok raw) :
    site.rowKey a = site.rowKey b := by
  cases a with
  | tag vid tag =>
    cases b with
    | edge edge => cases howner
    | tag vid' tag' =>
      cases howner
      have hpad := (IndexLayout.encodeEntity_vertex.1 h).2
      have hpad' := (IndexLayout.encodeEntity_vertex.1 h').2
      exact Key.vertex_congr (hpad.trans hpad'.symm) site.part tag
  | edge edge =>
    cases b with
    | tag vid tag => cases howner
    | edge edge' =>
      have htype : edge.edgeType = edge'.edgeType := SchemaRef.edge.inj howner
      obtain ⟨hsrc, hdst, hranking⟩ := IndexLayout.encodeEntity_edge_inj h h'
      simp only [rowKey, Key.edge, hsrc, hdst, htype, hranking]

/-- An index key belongs to the row of one key. -/
theorem rowKey_of_entryKey (hregistered : site.catalog.Registered) (ha : site.Indexes a index)
    (hb : site.Indexes b other) (h : site.entryKey index a props = .ok entry)
    (h' : site.entryKey other b otherProps = .ok entry) : site.rowKey a = site.rowKey b := by
  obtain ⟨hownerA, id, hid⟩ := ha
  obtain ⟨hownerB, id', hid'⟩ := hb
  have hkey := encodeKey_of_entryKey h
  have hkey' := encodeKey_of_entryKey h'
  have hstem := IndexLayout.indexStem_prefix hkey
  have hstem' := IndexLayout.indexStem_prefix hkey'
  obtain rfl : index = other := hregistered.eq_of_stem hid hid' hstem hstem'
  have hraw := IndexLayout.encodeEntity_of_encodeKey hkey
  exact rowKey_of_encodeEntity (hownerA.symm.trans hownerB) hraw
    ((IndexLayout.encodeEntity_inj hkey hkey').symm.trans hraw)

end Site

end GraphStore
