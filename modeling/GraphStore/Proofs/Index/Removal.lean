import GraphStore.Proofs.Index.Upkeep

/-!
# Removal of rows with their index entries

A deletion reads the stored rows of what it deletes, and removes their index entries along with
them. It takes exactly that: the keys of the vertices and edges it names, and the index keys of the
rows that are stored there. The index entries of all other rows stay, since an index key belongs to
one row.
-/

namespace GraphStore

namespace Site

variable {site : Site} {gone : Entity → Prop} {p after : Partition} {e : Entity} {row : RowId}
  {key entry : Bytes}

/-- Whether a key lies where the rows of an entity are stored: under the stem of a vertex, or at the
key of an edge. -/
def InRange (site : Site) : Entity → Bytes → Prop
  | .vertex vid, key => ∃ stem, Key.vertexStem site.vidLen site.part vid = .ok stem ∧ stem <+: key
  | .edge edge, key => Key.edge site.vidLen site.part edge = .ok key

/-- Whether a key is an index key of a row that is stored for an entity. -/
def StoredEntry (site : Site) (p : Partition) (e : Entity) (entry : Bytes) : Prop :=
  ∃ row key raw, row.entity = e ∧ site.rowKey row = .ok key ∧ p[key]? = some raw ∧
    site.HasEntry row raw entry

/-- A partition that loses some entities: their keys go, and so do the index keys of the rows stored
there. Every other key keeps its value. -/
def Loses (site : Site) (gone : Entity → Prop) (p after : Partition) : Prop :=
  ∀ key raw : Bytes, after[key]? = some raw ↔
    p[key]? = some raw ∧ ∀ e, gone e → ¬ site.InRange e key ∧ ¬ site.StoredEntry p e key

/-- The key of a row lies where its entity is stored. -/
theorem inRange_of_rowKey (h : site.rowKey row = .ok key) : site.InRange row.entity key := by
  cases row with
  | tag vid tag =>
    obtain ⟨padded, hpad, rfl⟩ := Key.vertex_eq_ok.1 h
    exact ⟨_, Key.vertexStem_eq_ok.2 ⟨padded, hpad, rfl⟩, List.prefix_append ..⟩
  | edge edge => exact h

/-- A row's key that lies where an entity is stored is the key of a row of that entity. -/
theorem InRange.exists_row (h : site.InRange e key) (hkey : site.rowKey row = .ok key) :
    ∃ own : RowId, own.entity = e ∧ site.rowKey own = .ok key := by
  cases e with
  | vertex vid =>
    obtain ⟨stem, hstem, hstart⟩ := h
    cases row with
    | edge edge =>
      have hhead := (Key.head?_of_edge hkey).symm.trans (Key.head?_of_stem_prefix hstem hstart)
      exact absurd hhead (by decide)
    | tag other tag =>
      have hsame := Key.vertex_congr (Key.padVid_of_prefix hstem hkey hstart) site.part tag
      exact ⟨.tag vid tag, rfl, hsame.trans hkey⟩
  | edge edge => exact ⟨.edge edge, rfl, h⟩

/-- No index key lies where an entity is stored. -/
theorem InRange.head?_ne (h : site.InRange e key) : key.head? ≠ some Key.indexKind := by
  cases e with
  | vertex vid =>
    obtain ⟨stem, hstem, hstart⟩ := h
    rw [Key.head?_of_stem_prefix hstem hstart]
    decide
  | edge edge =>
    rw [Key.head?_of_edge h]
    decide

/-- An index key of a stored row is an index key. -/
theorem StoredEntry.head? (h : site.StoredEntry p e entry) : entry.head? = some Key.indexKind := by
  obtain ⟨row, key, raw, -, -, -, hentry⟩ := h
  exact hentry.isEntryOf.head?

/-- A partition that loses entities loses rows with their index entries. -/
theorem Loses.shrinks (hregistered : site.catalog.Registered) (h : site.Loses gone p after) :
    site.Shrinks p after where
  sub key raw hraw := ((h key raw).1 hraw).1
  entries row key hkey hmem entry hentry hold := by
    obtain ⟨raw, hraw⟩ := Partition.mem_iff_getElem?.1 hmem
    obtain ⟨value, hvalue⟩ := Partition.mem_iff_getElem?.1 hold
    refine Partition.mem_iff_getElem?.2 ⟨value, (h entry value).2 ⟨hvalue, fun e he =>
      ⟨fun hrange => hrange.head?_ne hentry.head?, ?_⟩⟩⟩
    -- An index key that goes belongs to a row that goes.
    rintro ⟨other, otherKey, old, rfl, hother, -, hotherEntry⟩
    have hsame := hotherEntry.isEntryOf.rowKey_eq hregistered hentry
    rw [hother, hkey] at hsame
    cases hsame
    exact (((h key raw).1 hraw).2 _ he).1 (inRange_of_rowKey hother)
  rows row key raw entry hkey hraw hentry hmem := by
    obtain ⟨value, hvalue⟩ := Partition.mem_iff_getElem?.1 hmem
    refine Partition.mem_iff_getElem?.2 ⟨raw, (h key raw).2 ⟨hraw, fun e he => ⟨fun hrange => ?_,
      fun hstored => head?_of_rowKey hkey hstored.head?⟩⟩⟩
    obtain ⟨own, howned, hown⟩ := hrange.exists_row hkey
    have hentry' := (hasEntry_congr hkey hown).1 hentry
    exact (((h entry value).1 hvalue).2 e he).2 ⟨own, key, raw, howned, hown, hraw, hentry'⟩

/-- A partition that loses entities keeps the rows of others and their index entries. -/
theorem Loses.kept (hregistered : site.catalog.Registered) (h : site.Loses gone p after)
    (hother : ∀ own key, gone (RowId.entity own) → site.rowKey own = .ok key →
      site.rowKey row ≠ .ok key)
    (hkey : site.rowKey row = .ok key ∨ site.IsEntryOf row key) : after[key]? = p[key]? := by
  refine Option.ext fun raw => (h key raw).trans (and_iff_left fun e he => ⟨fun hrange => ?_, ?_⟩)
  · rcases hkey with hkey | hentry
    · obtain ⟨own, rfl, hown⟩ := hrange.exists_row hkey
      exact hother own key he hown hkey
    · exact hrange.head?_ne hentry.head?
  · rintro ⟨own, ownKey, old, rfl, hown, -, hownEntry⟩
    rcases hkey with hkey | hentry
    · exact head?_of_rowKey hkey hownEntry.isEntryOf.head?
    · have hsame := hownEntry.isEntryOf.rowKey_eq hregistered hentry
      exact hother own ownKey he hown (hsame.symm.trans hown)

/-- Where only rows and index entries are stored, what lies where an entity is stored are the keys
of its rows. -/
theorem OnlyOf.inRange_iff {sort : RowId → Prop} (h : site.OnlyOf sort p) (hmem : key ∈ p) :
    site.InRange e key ↔ ∃ own : RowId, own.entity = e ∧ site.rowKey own = .ok key := by
  constructor
  · intro hrange
    obtain ⟨row, -, hrow | hentry⟩ := h key hmem
    · exact hrange.exists_row hrow
    · exact absurd hentry.head? hrange.head?_ne
  · rintro ⟨own, rfl, hown⟩
    exact inRange_of_rowKey hown

section StoredKeys

variable (site : Site) (indexes : List Index) (row : RowId) (raw : Bytes)

/-- The index keys that a deletion finds for a stored row: none for one of an unknown tag or edge
type or one that cannot be read. -/
def storedKeys : Except ErrorCode (List Bytes) :=
  match site.catalog.schema? site.space row.owner with
  | none => .ok []
  | some schema =>
    match Row.decode schema raw with
    | .error _ => .ok []
    | .ok values => Index.entryKeys site.vidLen site.part row.owner row.entity
        (Props.ofRow schema values) indexes

/-- The index keys found are those made of what the row reads as, and none if it reads as
nothing. -/
theorem storedKeys_cases :
    (∃ props, site.Reads row raw props ∧ site.storedKeys indexes row raw =
        Index.entryKeys site.vidLen site.part row.owner row.entity props indexes) ∨
      (∀ props, ¬ site.Reads row raw props) ∧ site.storedKeys indexes row raw = .ok [] := by
  unfold storedKeys
  split
  · next hschema =>
    refine .inr ⟨?_, rfl⟩
    rintro props ⟨schema, values, hknown, -⟩
    rw [hschema] at hknown
    cases hknown
  · next schema hschema =>
    split
    · next hdecode =>
      refine .inr ⟨?_, rfl⟩
      rintro props ⟨known, values, hknown, hvalues, -⟩
      obtain rfl := Option.some.inj (hschema.symm.trans hknown)
      rw [hdecode] at hvalues
      cases hvalues
    · next values hdecode => exact .inl ⟨_, ⟨schema, values, hschema, hdecode, rfl⟩, rfl⟩

/-- Without indexes there are no index keys. -/
theorem storedKeys_nil : site.storedKeys [] row raw = .ok [] := by
  rcases storedKeys_cases site [] row raw with ⟨props, -, h⟩ | ⟨-, h⟩
  · exact h
  · exact h

variable {indexes raw}

/-- The index keys found for a stored row are the index keys of the row. -/
theorem mem_storedKeys_iff {keys : List Bytes}
    (hindexes : site.catalog.indexes site.space row.owner.isEdge = .ok indexes)
    (h : site.storedKeys indexes row raw = .ok keys) {entry : Bytes} :
    entry ∈ keys ↔ site.HasEntry row raw entry := by
  rcases storedKeys_cases site indexes row raw with ⟨props, hreads, hkeys⟩ | ⟨hnone, hkeys⟩
  · exact mem_entryKeys_iff hreads hindexes (hkeys.symm.trans h)
  · cases hkeys.symm.trans h
    exact iff_of_false nofun fun ⟨props, index, hreads, _⟩ => hnone props hreads

/-- The index keys of a stored row are found when it has a key in every index, as far as it can be
read. -/
theorem exists_storedKeys_iff
    (hindexes : site.catalog.indexes site.space row.owner.isEdge = .ok indexes) :
    (∃ keys, site.storedKeys indexes row raw = .ok keys) ↔ site.Keyable row raw := by
  rcases storedKeys_cases site indexes row raw with ⟨props, hreads, hkeys⟩ | ⟨hnone, hkeys⟩
  · rw [hkeys]
    exact exists_entryKeys hreads hindexes
  · rw [hkeys]
    exact iff_of_true ⟨_, rfl⟩ fun props _ hreads => absurd hreads (hnone props)

end StoredKeys

end Site

namespace BatchMutation

variable {part : PartId}

/-- The vertices and edges that a mutation deletes from a partition. -/
inductive Deletes : BatchMutation → PartId → Entity → Prop where
  | vertex {req : DeleteVertices} {part : PartId} {vids : List VertexId} {vid : VertexId}
      (hitems : req.parts[part]? = some vids) (hvid : vid ∈ vids) :
      Deletes (.deleteVertices req) part (.vertex vid)
  | edge {req : DeleteEdges} {part : PartId} {edges : List EdgeKey} {edge : EdgeKey}
      (hitems : req.parts[part]? = some edges) (hedge : edge ∈ edges) :
      Deletes (.deleteEdges req) part (.edge edge)

/-- Whether a mutation is a deletion. -/
def isDeletion : BatchMutation → Bool
  | deleteVertices _ => true
  | deleteEdges _ => true
  | _ => false

/-- The vertices that are deleted are those that the request lists for the partition. -/
theorem deletes_deleteVertices_iff {req : DeleteVertices} {vids : List VertexId}
    (hitems : req.parts[part]? = some vids) {e : Entity} :
    (deleteVertices req).Deletes part e ↔ ∃ vid ∈ vids, e = .vertex vid := by
  constructor
  · intro h
    cases h with
    | vertex hitems' hvid =>
      obtain rfl := Option.some.inj (hitems.symm.trans hitems')
      exact ⟨_, hvid, rfl⟩
  · rintro ⟨vid, hvid, rfl⟩
    exact .vertex hitems hvid

/-- The edges that are deleted are those that the request lists for the partition. -/
theorem deletes_deleteEdges_iff {req : DeleteEdges} {edges : List EdgeKey}
    (hitems : req.parts[part]? = some edges) {e : Entity} :
    (deleteEdges req).Deletes part e ↔ ∃ edge ∈ edges, e = .edge edge := by
  constructor
  · intro h
    cases h with
    | edge hitems' hedge =>
      obtain rfl := Option.some.inj (hitems.symm.trans hitems')
      exact ⟨_, hedge, rfl⟩
  · rintro ⟨edge, hedge, rfl⟩
    exact .edge hitems hedge

end BatchMutation

/-- A read that succeeds reads the partition's content. -/
theorem Node.reading_read_eq_ok {α : Type} {node : Node} {space : SpaceId} {part : PartId}
    {f : Partition → α} {found : α} {p : Partition}
    (hp : node.store.parts[(⟨space, part⟩ : Address)]? = some p)
    (h : node.reading part (node.store.read ⟨space, part⟩ f) = .ok found) : f p = found := by
  unfold Node.reading Store.read at h
  rw [hp] at h
  split at h
  · cases h
  · exact Except.ok.inj h

namespace DeleteEdges

variable {req : DeleteEdges} {node : Node} {layout : SpaceLayout} {part : PartId}
  {edge : EdgeKey} {key : Bytes} {keys : List Bytes} {p : Partition}

/-- The index keys found for an edge are those found for the row that is read, if there is one. -/
theorem indexKeys_of_get {found : Option Bytes} (h : node.get req.space part key = .ok found) :
    req.indexKeys node layout part edge key = found.elim (.ok []) (Site.storedKeys
      ⟨node.catalog, req.space, layout.vidLen, part⟩ layout.indexes (.edge edge)) := by
  unfold indexKeys
  split
  · next hempty =>
    cases found with
    | none => rfl
    | some raw =>
      rw [List.isEmpty_iff.1 hempty]
      exact (Site.storedKeys_nil ..).symm
  · rw [h]
    cases found with
    | none => rfl
    | some raw =>
      unfold Site.storedKeys
      dsimp only [Option.elim_some, RowId.owner, RowId.entity]
      cases node.catalog.schema? req.space (.edge edge.edgeType) <;> rfl

/-- The index keys found for an edge are those of the row that is stored. -/
theorem mem_indexKeys_iff (hlayout : node.layout req.space true = .ok layout)
    (hp : node.store.parts[(⟨req.space, part⟩ : Address)]? = some p)
    (h : req.indexKeys node layout part edge key = .ok keys) {entry : Bytes} :
    entry ∈ keys ↔ ∃ raw, p[key]? = some raw ∧
      Site.HasEntry ⟨node.catalog, req.space, layout.vidLen, part⟩ (.edge edge) raw entry := by
  have hindexes := (Node.layout_eq_ok.1 hlayout).2
  let site : Site := ⟨node.catalog, req.space, layout.vidLen, part⟩
  cases hget : node.get req.space part key with
  | error code =>
    -- Without a reading there are index keys only if there are no indexes.
    unfold indexKeys at h
    rw [hget] at h
    split at h
    · next hempty =>
      cases h
      refine iff_of_false nofun ?_
      rintro ⟨raw, -, props, index, -, hindex, -⟩
      have hmem := (site.mem_filter_indexes (.edge edge) hindexes).2 hindex
      rw [List.isEmpty_iff.1 hempty] at hmem
      cases hmem
    · cases h
  | ok found =>
    have hfound : p[key]? = found := node.reading_read_eq_ok hp hget
    rw [indexKeys_of_get hget] at h
    rw [hfound]
    cases found with
    | none =>
      cases h
      exact iff_of_false nofun nofun
    | some raw =>
      refine (site.mem_storedKeys_iff (.edge edge) hindexes h).trans
        ⟨fun hentry => ⟨raw, rfl, hentry⟩, ?_⟩
      rintro ⟨stored, hstored, hentry⟩
      obtain rfl := Option.some.inj hstored
      exact hentry

/-- The keys removed with an edge are its own and the index keys of the row that is stored. -/
theorem mem_removal_iff (hlayout : node.layout req.space true = .ok layout)
    (hp : node.store.parts[(⟨req.space, part⟩ : Address)]? = some p)
    (h : req.removal node layout part edge = .ok keys) :
    key ∈ keys ↔ Site.InRange ⟨node.catalog, req.space, layout.vidLen, part⟩ (.edge edge) key ∨
      Site.StoredEntry ⟨node.catalog, req.space, layout.vidLen, part⟩ p (.edge edge) key := by
  let site : Site := ⟨node.catalog, req.space, layout.vidLen, part⟩
  obtain ⟨own, hown, h⟩ := bind_eq_ok.1 h
  obtain ⟨found, hfound, h⟩ := bind_eq_ok.1 h
  cases h
  have hrange : key ∈ [own] ↔ site.InRange (.edge edge) key := by
    rw [List.mem_singleton]
    exact ⟨fun heq => heq ▸ hown, fun hkey => Except.ok.inj (hkey.symm.trans hown)⟩
  have hstored : key ∈ found ↔ site.StoredEntry p (.edge edge) key := by
    rw [mem_indexKeys_iff hlayout hp hfound]
    constructor
    · rintro ⟨raw, hraw, hentry⟩
      exact ⟨.edge edge, own, raw, rfl, hown, hraw, hentry⟩
    · rintro ⟨row, rowKey, raw, howned, hrow, hraw, hentry⟩
      cases row with
      | tag vid tag => cases howned
      | edge other =>
        cases howned
        obtain rfl := Except.ok.inj (hown.symm.trans hrow)
        exact ⟨raw, hraw, hentry⟩
  rw [List.mem_append, hrange, hstored, or_comm]

/-- Removing edges takes just these with the index keys of their rows. -/
theorem loses_of_removals (hlayout : node.layout req.space true = .ok layout)
    (hp : node.store.parts[(⟨req.space, part⟩ : Address)]? = some p) {edges : List EdgeKey}
    (hitems : req.parts[part]? = some edges) {removals : List (List Bytes)}
    (h : List.Forall₂ (fun edge keys => req.removal node layout part edge = .ok keys)
      edges removals) :
    Site.Loses ⟨node.catalog, req.space, layout.vidLen, part⟩
      ((BatchMutation.deleteEdges req).Deletes part) p (p.remove removals.flatten) := by
  let site : Site := ⟨node.catalog, req.space, layout.vidLen, part⟩
  intro key raw
  have hremoved : key ∈ removals.flatten ↔
      ∃ edge ∈ edges, site.InRange (.edge edge) key ∨ site.StoredEntry p (.edge edge) key := by
    rw [List.mem_flatten]
    constructor
    · rintro ⟨keys, hkeys, hmem⟩
      obtain ⟨edge, hedge, hremoval⟩ := exists_of_forall₂_right h hkeys
      exact ⟨edge, hedge, (mem_removal_iff hlayout hp hremoval).1 hmem⟩
    · rintro ⟨edge, hedge, hmem⟩
      obtain ⟨keys, hkeys, hremoval⟩ := exists_of_forall₂_left h hedge
      exact ⟨keys, hkeys, (mem_removal_iff hlayout hp hremoval).2 hmem⟩
  rw [Partition.getElem?_remove]
  split
  · next hmem =>
    obtain ⟨edge, hedge, htaken⟩ := hremoved.1 hmem
    exact iff_of_false nofun fun hkept => not_or.2 (hkept.2 _ (.edge hitems hedge)) htaken
  · next hmem =>
    refine ⟨fun hraw => ⟨hraw, fun e hdeleted => ?_⟩, fun hkept => hkept.1⟩
    obtain ⟨edge, hedge, rfl⟩ := (BatchMutation.deletes_deleteEdges_iff hitems).1 hdeleted
    exact not_or.1 fun htaken => hmem (hremoved.2 ⟨edge, hedge, htaken⟩)

end DeleteEdges

namespace DeleteVertices

variable {req : DeleteVertices} {node : Node} {layout : SpaceLayout} {part : PartId}
  {vid : VertexId} {stem : Bytes} {keys : List Bytes} {p : Partition}

/-- The index keys found for a row of a vertex are those found for a stored row. -/
theorem indexKeys_eq (req : DeleteVertices) (node : Node) (layout : SpaceLayout) (part : PartId)
    (vid : VertexId) (tag : TagId) (raw : Bytes) :
    req.indexKeys node layout part vid (tag, raw) = Site.storedKeys
      ⟨node.catalog, req.space, layout.vidLen, part⟩ layout.indexes (.tag vid tag) raw :=
  rfl

/-- The index keys found for a row of a vertex are the index keys of the row. -/
theorem mem_indexKeys_iff (hlayout : node.layout req.space false = .ok layout) {tag : TagId}
    {raw : Bytes} (h : req.indexKeys node layout part vid (tag, raw) = .ok keys) {entry : Bytes} :
    entry ∈ keys ↔
      Site.HasEntry ⟨node.catalog, req.space, layout.vidLen, part⟩ (.tag vid tag) raw entry := by
  rw [indexKeys_eq] at h
  exact Site.mem_storedKeys_iff _ (.tag vid tag) (Node.layout_eq_ok.1 hlayout).2 h

/-- The rows read for a vertex are stored under its stem. -/
theorem mem_of_storedRows (hp : node.store.parts[(⟨req.space, part⟩ : Address)]? = some p)
    {rows : List (TagId × Bytes)} (h : req.storedRows node layout part stem = .ok rows)
    {tag : TagId} {raw : Bytes} (hmem : (tag, raw) ∈ rows) : ∃ key : Bytes, stem <+: key ∧
      Key.tagOfVertex? layout.vidLen key = some tag ∧ p[key]? = some raw := by
  unfold storedRows at h
  split at h
  · cases h
    cases hmem
  · split at h
    · next stored hscan =>
      cases h
      obtain rfl := node.reading_read_eq_ok hp hscan
      obtain ⟨⟨key, value⟩, hkey, hfound⟩ := List.mem_filterMap.1 hmem
      obtain ⟨found, htag, heq⟩ := Option.map_eq_some_iff.1 hfound
      cases heq
      obtain ⟨hraw, hstart⟩ := Partition.mem_scan.1 hkey
      exact ⟨key, hstart, htag, hraw⟩
    · cases h

/-- All rows stored under the stem of a vertex are read for it, except in a space without indexes
over tags. -/
theorem storedRows_complete (hlayout : node.layout req.space false = .ok layout)
    (hp : node.store.parts[(⟨req.space, part⟩ : Address)]? = some p)
    {rows : List (TagId × Bytes)} (h : req.storedRows node layout part stem = .ok rows)
    {key raw : Bytes} {tag : TagId} (hstart : stem <+: key)
    (htag : Key.tagOfVertex? layout.vidLen key = some tag)
    (hraw : p[key]? = some raw) :
    (tag, raw) ∈ rows ∨ ∀ row index, row.owner.isEdge = false →
      ¬ Site.Indexes ⟨node.catalog, req.space, layout.vidLen, part⟩ row index := by
  unfold storedRows at h
  split at h
  · next hempty =>
    refine .inr fun row index howner ⟨hindex, hid⟩ => ?_
    have hmem := (Catalog.mem_of_indexes (Node.layout_eq_ok.1 hlayout).2 index).2
      ⟨hid, by rw [hindex, howner]⟩
    rw [List.isEmpty_iff.1 (Bool.and_eq_true_iff.1 hempty).1] at hmem
    cases hmem
  · split at h
    · next stored hscan =>
      cases h
      obtain rfl := node.reading_read_eq_ok hp hscan
      exact .inl (List.mem_filterMap.2 ⟨(key, raw), Partition.mem_scan.2 ⟨hraw, hstart⟩,
        congrArg (Option.map fun tag => (tag, raw)) htag⟩)
    · cases h

/-- What is removed with a vertex is its range and the index keys of the rows that are stored. -/
theorem removal_spec (hlayout : node.layout req.space false = .ok layout)
    (hp : node.store.parts[(⟨req.space, part⟩ : Address)]? = some p)
    (h : req.removal node layout part vid = .ok (stem, keys)) :
    Key.vertexStem layout.vidLen part vid = .ok stem ∧ ∀ entry, entry ∈ keys ↔
      Site.StoredEntry ⟨node.catalog, req.space, layout.vidLen, part⟩ p (.vertex vid) entry := by
  let site : Site := ⟨node.catalog, req.space, layout.vidLen, part⟩
  obtain ⟨stem', hstem, h⟩ := bind_eq_ok.1 h
  obtain ⟨rows, hrows, h⟩ := bind_eq_ok.1 h
  obtain ⟨found, hfound, h⟩ := bind_eq_ok.1 h
  cases h
  have hall := mapM_eq_ok.1 hfound
  refine ⟨hstem, fun entry => ?_⟩
  rw [List.mem_flatten]
  constructor
  · rintro ⟨keys, hkeys, hentry⟩
    obtain ⟨⟨tag, raw⟩, hrow, hmade⟩ := exists_of_forall₂_right hall hkeys
    obtain ⟨key, hstart, htag, hraw⟩ := mem_of_storedRows hp hrows hrow
    have hkey : site.rowKey (.tag vid tag) = .ok key := Key.vertex_of_tagOfVertex? hstem hstart htag
    exact ⟨.tag vid tag, key, raw, rfl, hkey, hraw, (mem_indexKeys_iff hlayout hmade).1 hentry⟩
  · rintro ⟨row, key, raw, howned, hrow, hraw, hentry⟩
    cases row with
    | edge edge => cases howned
    | tag other tag =>
      cases howned
      rcases storedRows_complete hlayout hp hrows (Key.stem_prefix hstem hrow)
        (Key.tagOfVertex?_of_vertex hrow) hraw with hmem | hnone
      · obtain ⟨keys, hkeys, hmade⟩ := exists_of_forall₂_left hall hmem
        exact ⟨keys, hkeys, (mem_indexKeys_iff hlayout hmade).2 hentry⟩
      · obtain ⟨props, index, -, hindex, -⟩ := hentry
        exact absurd hindex (hnone (.tag vid tag) index rfl)

/-- Removing ranges leaves the keys outside of all of them. -/
theorem getElem?_foldl_removeRange (removals : List (Bytes × List Bytes)) (p : Partition)
    (key raw : Bytes) :
    (removals.foldl (fun p (stem, _) => p.removeRange stem (Key.upperBound stem)) p)[key]? =
        some raw ↔
      p[key]? = some raw ∧
        ∀ removal ∈ removals,
          Partition.within removal.1 (Key.upperBound removal.1) key = false := by
  induction removals generalizing p with
  | nil => simp
  | cons removal removals ih =>
    rw [List.foldl_cons, ih, Partition.getElem?_removeRange, List.forall_mem_cons]
    cases Partition.within removal.1 (Key.upperBound removal.1) key <;> simp

/-- Removing vertices takes just these with the index keys of their rows. -/
theorem loses_of_removals (hlayout : node.layout req.space false = .ok layout)
    (hp : node.store.parts[(⟨req.space, part⟩ : Address)]? = some p) {vids : List VertexId}
    (hitems : req.parts[part]? = some vids) {removals : List (Bytes × List Bytes)}
    (h : List.Forall₂ (fun vid removal => req.removal node layout part vid = .ok removal)
      vids removals) :
    Site.Loses ⟨node.catalog, req.space, layout.vidLen, part⟩
      ((BatchMutation.deleteVertices req).Deletes part) p
      ((removals.foldl (fun p (stem, _) => p.removeRange stem (Key.upperBound stem)) p).remove
        (removals.flatMap (·.2))) := by
  let site : Site := ⟨node.catalog, req.space, layout.vidLen, part⟩
  intro key raw
  have hranges : (∀ removal ∈ removals,
      Partition.within removal.1 (Key.upperBound removal.1) key = false) ↔
        ∀ vid ∈ vids, ¬ site.InRange (.vertex vid) key := by
    constructor
    · rintro hall vid hvid ⟨stem, hstem, hstart⟩
      obtain ⟨removal, hmem, hremoval⟩ := exists_of_forall₂_left h hvid
      obtain ⟨hstem', -⟩ := removal_spec hlayout hp hremoval
      obtain rfl := Except.ok.inj (hstem.symm.trans hstem')
      have hwithin := (Key.within_vertexStem_iff hstem' key).2 hstart
      rw [hall removal hmem] at hwithin
      cases hwithin
    · intro hall removal hmem
      obtain ⟨vid, hvid, hremoval⟩ := exists_of_forall₂_right h hmem
      obtain ⟨hstem, -⟩ := removal_spec hlayout hp hremoval
      refine Bool.eq_false_iff.2 fun hwithin => hall vid hvid ⟨removal.1, hstem, ?_⟩
      exact (Key.within_vertexStem_iff hstem key).1 hwithin
  have hkeys : key ∈ removals.flatMap (·.2) ↔
      ∃ vid ∈ vids, site.StoredEntry p (.vertex vid) key := by
    rw [List.mem_flatMap]
    constructor
    · rintro ⟨removal, hmem, hkey⟩
      obtain ⟨vid, hvid, hremoval⟩ := exists_of_forall₂_right h hmem
      exact ⟨vid, hvid, ((removal_spec hlayout hp hremoval).2 key).1 hkey⟩
    · rintro ⟨vid, hvid, hstored⟩
      obtain ⟨removal, hmem, hremoval⟩ := exists_of_forall₂_left h hvid
      exact ⟨removal, hmem, ((removal_spec hlayout hp hremoval).2 key).2 hstored⟩
  rw [Partition.getElem?_remove]
  split
  · next hmem =>
    obtain ⟨vid, hvid, hstored⟩ := hkeys.1 hmem
    exact iff_of_false nofun fun hkept => (hkept.2 _ (.vertex hitems hvid)).2 hstored
  · next hmem =>
    rw [getElem?_foldl_removeRange, hranges]
    refine and_congr_right fun _ =>
      ⟨fun hall e hdeleted => ?_, fun hkept vid hvid => (hkept _ (.vertex hitems hvid)).1⟩
    obtain ⟨vid, hvid, rfl⟩ := (BatchMutation.deletes_deleteVertices_iff hitems).1 hdeleted
    exact ⟨hall vid hvid, fun hstored => hmem (hkeys.2 ⟨vid, hvid, hstored⟩)⟩

end DeleteVertices

namespace BatchMutation

variable {node : Node} {m : BatchMutation} {part : PartId}

/-- The space of a mutation that finds a layout has that layout's width. -/
theorem vidLen_of_layout {space : SpaceId} {onEdges : Bool} {layout : SpaceLayout} {vidLen : Nat}
    (hlayout : node.layout space onEdges = .ok layout)
    (hvidLen : node.catalog.vidLen space = .ok vidLen) : layout.vidLen = vidLen :=
  Except.ok.inj ((Node.layout_eq_ok.1 hlayout).1.symm.trans hvidLen)

/-- The whole of an insertion is a put. -/
theorem Whole.puts {change : Partition → Partition} (h : Whole node m part change)
    (hinsertion : m.isDeletion = false) :
    ∃ batch, Puts node m part batch ∧ change = fun p => p.put batch := by
  cases h with
  | put hputs => exact ⟨_, hputs, rfl⟩
  | deleteVertices => cases hinsertion
  | deleteEdges => cases hinsertion

/-- The whole of a deletion takes what it deletes, and nothing else. -/
theorem Whole.loses {change : Partition → Partition} (h : Whole node m part change)
    (hdeletion : m.isDeletion = true) {p : Partition}
    (hp : node.store.parts[(⟨m.space, part⟩ : Address)]? = some p) {vidLen : Nat}
    (hvidLen : node.catalog.vidLen m.space = .ok vidLen) :
    Site.Loses ⟨node.catalog, m.space, vidLen, part⟩ (m.Deletes part) p (change p) := by
  cases h with
  | put hputs => cases hputs <;> cases hdeletion
  | deleteVertices hlayout hitems hremovals =>
    obtain rfl := vidLen_of_layout hlayout hvidLen
    exact DeleteVertices.loses_of_removals hlayout hp hitems hremovals
  | deleteEdges hlayout hitems hremovals =>
    obtain rfl := vidLen_of_layout hlayout hvidLen
    exact DeleteEdges.loses_of_removals hlayout hp hitems hremovals

end BatchMutation

end GraphStore
