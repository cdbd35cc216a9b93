import GraphStore.Proofs.Run.MissingEntries

/-!
# Which deletions are refused

A deletion makes the index keys of what is stored again, in the indexes that are registered by then.
It skips rows of unknown tags and edge types and rows that cannot be read, but a row that can be
read and has no key in some index refuses it, and keeps all that is stored. Where the catalog stays
as it is, every stored row has its index keys, and a deletion of what fits is not refused.
-/

namespace GraphStore

/-- Whether the vertex ids of an entity fit into their fields in keys. -/
def Entity.Fits (vidLen : Nat) (e : Entity) : Prop :=
  ∀ vid ∈ e.vids, (Utf8.ofString vid).length ≤ vidLen

instance (vidLen : Nat) (e : Entity) : Decidable (e.Fits vidLen) :=
  inferInstanceAs (Decidable (∀ vid ∈ e.vids, _ ≤ _))

/-- An edge has a key when both of its ids fit into their fields. -/
theorem Key.exists_edge {vidLen : Nat} {part : PartId} {edge : EdgeKey} :
    (∃ key, Key.edge vidLen part edge = .ok key) ↔ (Entity.edge edge).Fits vidLen := by
  rw [exists_edgeKey, Entity.Fits, Entity.vids, List.forall_mem_cons, List.forall_mem_singleton]

/-- A vertex has a stem when its id fits into the field. -/
theorem Key.exists_stem {vidLen : Nat} {part : PartId} {vid : VertexId} :
    (∃ stem, Key.vertexStem vidLen part vid = .ok stem) ↔ (Entity.vertex vid).Fits vidLen := by
  rw [exists_vertexStem, Entity.Fits, Entity.vids, List.forall_mem_singleton]

/-- A partition that is there is read unless it is down. -/
theorem Node.reading_read_of_up {α : Type} {node : Node} {space : SpaceId} {part : PartId}
    {f : Partition → α} {p : Partition} (hup : part ∉ node.down)
    (hp : node.store.parts[(⟨space, part⟩ : Address)]? = some p) :
    node.reading part (node.store.read ⟨space, part⟩ f) = .ok (f p) := by
  rw [Node.reading, if_neg hup, Store.read, hp]

/-- Whether an entity can be removed from a partition: its ids fit, and the rows stored for it have
keys in all indexes, as far as they can be read. -/
def Site.Removable (site : Site) (p : Partition) (e : Entity) : Prop :=
  e.Fits site.vidLen ∧ ∀ (row : RowId) (key raw : Bytes), row.entity = e →
    site.rowKey row = .ok key → p[key]? = some raw → site.Keyable row raw

/-- An entity whose ids fit cannot be removed when a row stored for it clashes with an index. -/
theorem Site.not_removable_iff {site : Site} {p : Partition} {e : Entity}
    (hfits : e.Fits site.vidLen) : ¬ site.Removable p e ↔
      ∃ (row : RowId) (key raw : Bytes), row.entity = e ∧ site.rowKey row = .ok key ∧
        p[key]? = some raw ∧ site.Clashes row raw := by
  constructor
  · intro hnot
    by_contra hnone
    refine hnot ⟨hfits, fun row key raw howned hkey hraw => ?_⟩
    by_contra hkeyable
    exact hnone ⟨row, key, raw, howned, hkey, hraw, (not_keyable_iff hkey).1 hkeyable⟩
  · rintro ⟨row, key, raw, howned, hkey, hraw, hclashes⟩ ⟨-, hall⟩
    exact (not_keyable_iff hkey).2 hclashes (hall row key raw howned hkey hraw)

namespace DeleteEdges

variable {req : DeleteEdges} {node : Node} {layout : SpaceLayout} {part : PartId} {p : Partition}

/-- The removal of an edge can be prepared when the edge can be removed. -/
theorem exists_removal_iff (hlayout : node.layout req.space true = .ok layout)
    (hup : part ∉ node.down) (hp : node.store.parts[(⟨req.space, part⟩ : Address)]? = some p)
    {edge : EdgeKey} : (∃ keys, req.removal node layout part edge = .ok keys) ↔
      Site.Removable ⟨node.catalog, req.space, layout.vidLen, part⟩ p (.edge edge) := by
  let site : Site := ⟨node.catalog, req.space, layout.vidLen, part⟩
  have hindexes := (Node.layout_eq_ok.1 hlayout).2
  have hget (key : Bytes) : node.get req.space part key = .ok p[key]? :=
    Node.reading_read_of_up hup hp
  constructor
  · rintro ⟨keys, h⟩
    obtain ⟨own, hown, h⟩ := bind_eq_ok.1 h
    obtain ⟨found, hfound, -⟩ := bind_eq_ok.1 h
    refine ⟨Key.exists_edge.1 ⟨own, hown⟩, fun row key raw howned hkey hraw => ?_⟩
    cases row with
    | tag vid tag => cases howned
    | edge other =>
      cases howned
      obtain rfl := Except.ok.inj (hown.symm.trans hkey)
      rw [indexKeys_of_get (hget own), hraw] at hfound
      exact (site.exists_storedKeys_iff (.edge edge) hindexes).1 ⟨found, hfound⟩
  · rintro ⟨hfits, hall⟩
    obtain ⟨own, hown⟩ := Key.exists_edge.2 hfits
    have hkeys : ∃ keys, req.indexKeys node layout part edge own = .ok keys := by
      rw [indexKeys_of_get (hget own)]
      cases hraw : p[own]? with
      | none => exact ⟨[], rfl⟩
      | some raw =>
        exact (site.exists_storedKeys_iff (.edge edge) hindexes).2
          (hall (.edge edge) own raw rfl hown hraw)
    obtain ⟨keys, hkeys⟩ := hkeys
    exact ⟨_, bind_eq_ok.2 ⟨own, hown, bind_eq_ok.2 ⟨keys, hkeys, rfl⟩⟩⟩

/-- The removal of edges can be prepared when all of them can be removed. -/
theorem exists_prepare_iff (hlayout : node.layout req.space true = .ok layout)
    (hup : part ∉ node.down) (hp : node.store.parts[(⟨req.space, part⟩ : Address)]? = some p)
    {edges : List EdgeKey} (hitems : req.parts[part]? = some edges) :
    (∃ units, req.prepare node layout part edges = .ok units) ↔
      ∀ e, (BatchMutation.deleteEdges req).Deletes part e →
        Site.Removable ⟨node.catalog, req.space, layout.vidLen, part⟩ p e := by
  rw [exists_make_iff fun _ => prepare_eq_ok]
  constructor
  · intro hall e hdeleted
    obtain ⟨edge, hedge, rfl⟩ := (BatchMutation.deletes_deleteEdges_iff hitems).1 hdeleted
    exact (exists_removal_iff hlayout hup hp).1 (hall edge hedge)
  · intro hall edge hedge
    exact (exists_removal_iff hlayout hup hp).2 (hall _ (.edge hitems hedge))

end DeleteEdges

namespace DeleteVertices

variable {req : DeleteVertices} {node : Node} {layout : SpaceLayout} {part : PartId} {p : Partition}

/-- The stored rows of a vertex are found unless the partition is down. -/
theorem exists_storedRows (layout : SpaceLayout) (hup : part ∉ node.down)
    (hp : node.store.parts[(⟨req.space, part⟩ : Address)]? = some p) (stem : Bytes) :
    ∃ rows, req.storedRows node layout part stem = .ok rows := by
  have hscan : node.scan req.space part stem = .ok (p.scan stem) := Node.reading_read_of_up hup hp
  unfold storedRows
  split
  · exact ⟨_, rfl⟩
  · rw [hscan]
    exact ⟨_, rfl⟩

/-- The removal of a vertex can be prepared when the vertex can be removed. -/
theorem exists_removal_iff (hlayout : node.layout req.space false = .ok layout)
    (hup : part ∉ node.down) (hp : node.store.parts[(⟨req.space, part⟩ : Address)]? = some p)
    {vid : VertexId} : (∃ removal, req.removal node layout part vid = .ok removal) ↔
      Site.Removable ⟨node.catalog, req.space, layout.vidLen, part⟩ p (.vertex vid) := by
  let site : Site := ⟨node.catalog, req.space, layout.vidLen, part⟩
  have hindexes := (Node.layout_eq_ok.1 hlayout).2
  have hkeyable (tag : TagId) (raw : Bytes) :
      (∃ keys, req.indexKeys node layout part vid (tag, raw) = .ok keys) ↔
        site.Keyable (.tag vid tag) raw := site.exists_storedKeys_iff (.tag vid tag) hindexes
  rw [Site.Removable, ← Key.exists_stem]
  constructor
  · rintro ⟨removal, h⟩
    obtain ⟨stem, hstem, h⟩ := bind_eq_ok.1 h
    obtain ⟨rows, hrows, h⟩ := bind_eq_ok.1 h
    obtain ⟨found, hfound, -⟩ := bind_eq_ok.1 h
    refine ⟨⟨stem, hstem⟩, fun row key raw howned hkey hraw => ?_⟩
    cases row with
    | edge edge => cases howned
    | tag other tag =>
      cases howned
      rcases storedRows_complete hlayout hp hrows (Key.stem_prefix hstem hkey)
        (Key.tagOfVertex?_of_vertex hkey) hraw with hmem | hnone
      · exact (hkeyable tag raw).1 (exists_mapM_eq_ok.1 ⟨found, hfound⟩ (tag, raw) hmem)
      · -- Rows are left unread only where no index over tags could lack a key of them.
        exact fun props index _ hindex => absurd hindex (hnone (.tag vid tag) index rfl)
  · rintro ⟨⟨stem, hstem⟩, hall⟩
    obtain ⟨rows, hrows⟩ := exists_storedRows layout hup hp stem
    have hkeys : ∀ row ∈ rows, ∃ keys, req.indexKeys node layout part vid row = .ok keys := by
      rintro ⟨tag, raw⟩ hmem
      obtain ⟨key, hstart, htag, hraw⟩ := mem_of_storedRows hp hrows hmem
      have hkey : site.rowKey (.tag vid tag) = .ok key :=
        Key.vertex_of_tagOfVertex? hstem hstart htag
      exact (hkeyable tag raw).2 (hall (.tag vid tag) key raw rfl hkey hraw)
    obtain ⟨keys, hkeys⟩ := exists_mapM_eq_ok.2 hkeys
    exact ⟨_, bind_eq_ok.2 ⟨stem, hstem,
      bind_eq_ok.2 ⟨rows, hrows, bind_eq_ok.2 ⟨keys, hkeys, rfl⟩⟩⟩⟩

/-- The removal of vertices can be prepared when all of them can be removed. -/
theorem exists_prepare_iff (hlayout : node.layout req.space false = .ok layout)
    (hup : part ∉ node.down) (hp : node.store.parts[(⟨req.space, part⟩ : Address)]? = some p)
    {vids : List VertexId} (hitems : req.parts[part]? = some vids) :
    (∃ units, req.prepare node layout part vids = .ok units) ↔
      ∀ e, (BatchMutation.deleteVertices req).Deletes part e →
        Site.Removable ⟨node.catalog, req.space, layout.vidLen, part⟩ p e := by
  rw [exists_make_iff fun _ => prepare_eq_ok]
  constructor
  · intro hall e hdeleted
    obtain ⟨vid, hvid, rfl⟩ := (BatchMutation.deletes_deleteVertices_iff hitems).1 hdeleted
    exact (exists_removal_iff hlayout hup hp).1 (hall vid hvid)
  · intro hall vid hvid
    exact (exists_removal_iff hlayout hup hp).2 (hall _ (.vertex hitems hvid))

end DeleteVertices

namespace BatchMutation

variable {node : Node} {m : BatchMutation} {part : PartId} {layout : SpaceLayout} {p : Partition}

/-- Whether a mutation is about edges, and so about the indexes over these. -/
def onEdges : BatchMutation → Bool
  | addVertices _ => false
  | deleteVertices _ => false
  | _ => true

/-- A deletion in a partition that takes writes is carried out when all that it deletes can be
removed. Otherwise it is refused and removes nothing. -/
theorem deletion_of_writable (hdeletion : m.isDeletion = true)
    (hlayout : node.layout m.space m.onEdges = .ok layout) (hrequested : m.Requests part)
    (hwritable : node.Writable ⟨m.space, part⟩)
    (hp : node.store.parts[(⟨m.space, part⟩ : Address)]? = some p) :
    (∀ e, m.Deletes part e → Site.Removable ⟨node.catalog, m.space, layout.vidLen, part⟩ p e) ∧
        part ∉ m.listed node ∧ (∃ change, Whole node m part change ∧
          (m.run node).1.store.parts[(⟨m.space, part⟩ : Address)]? = some (change p)) ∨
      ¬ (∀ e, m.Deletes part e →
          Site.Removable ⟨node.catalog, m.space, layout.vidLen, part⟩ p e) ∧
        part ∈ m.listed node ∧
        (m.run node).1.store.parts[(⟨m.space, part⟩ : Address)]? = some p := by
  cases m with
  | addVertices req => cases hdeletion
  | addEdges req => cases hdeletion
  | addEdgesChained req schedule => cases hdeletion
  | deleteEdges req =>
    have hlayout : node.layout req.space true = .ok layout := hlayout
    obtain ⟨edges, hedges⟩ := PartMap.mem_iff_getElem?.1 hrequested
    have houtcome := runUnits_of_writable (req.preparesWrites node) (req.prepare_truthful node)
      hedges hwritable hp (DeleteEdges.exists_prepare_iff hlayout hwritable.1 hp hedges)
      fun writes => deleteEdges_whole layout part writes req edges hlayout hedges
    rw [← hlayout] at houtcome
    exact houtcome
  | deleteVertices req =>
    have hlayout : node.layout req.space false = .ok layout := hlayout
    obtain ⟨vids, hvids⟩ := PartMap.mem_iff_getElem?.1 hrequested
    -- Forgetting cached rows leaves the partition as it is.
    have hall (cached : Node) (hstore : cached.store = node.store)
        (hdown : cached.down = node.down) :=
      have hwritable' : cached.Writable ⟨req.space, part⟩ := by
        rw [Node.Writable, hstore, hdown]
        exact hwritable
      runUnits_of_writable (req.preparesWrites node) (req.prepare_truthful node) hvids hwritable'
        (hstore ▸ hp) (DeleteVertices.exists_prepare_iff hlayout hwritable.1 hp hvids) fun writes =>
          deleteVertices_whole layout part writes req vids hlayout hvids
    rw [← hlayout] at hall
    rw [listed, run, Node.deleteVertices]
    split
    · exact hall (node.evict _) rfl rfl
    · exact hall node rfl rfl

/-- A deletion that is carried out leaves nothing where what it deletes is stored. -/
theorem Whole.not_mem_of_inRange {change : Partition → Partition} (h : Whole node m part change)
    (hdeletion : m.isDeletion = true) (hlayout : node.layout m.space m.onEdges = .ok layout)
    (hp : node.store.parts[(⟨m.space, part⟩ : Address)]? = some p) {e : Entity} {key : Bytes}
    (he : m.Deletes part e)
    (hrange : Site.InRange ⟨node.catalog, m.space, layout.vidLen, part⟩ e key) :
    key ∉ change p := by
  have hloses := h.loses hdeletion hp (Node.layout_eq_ok.1 hlayout).1
  intro hmem
  obtain ⟨raw, hraw⟩ := Partition.mem_iff_getElem?.1 hmem
  exact (((hloses key raw).1 hraw).2 e he).1 hrange

/-- A deletion of vertices or edges whose ids fit, from a partition that takes writes in a space
with a layout, is refused exactly when a row stored for one of them clashes with an index. It then
leaves the partition as it is, and otherwise no row of what it deletes. -/
theorem deletion_refused_iff (hdeletion : m.isDeletion = true)
    (hlayout : node.layout m.space m.onEdges = .ok layout) (hrequested : m.Requests part)
    (hwritable : node.Writable ⟨m.space, part⟩)
    (hp : node.store.parts[(⟨m.space, part⟩ : Address)]? = some p)
    (hfits : ∀ e, m.Deletes part e → e.Fits layout.vidLen) :
    let site : Site := ⟨node.catalog, m.space, layout.vidLen, part⟩
    (part ∈ m.listed node ↔ ∃ (row : RowId) (key raw : Bytes), m.Deletes part row.entity ∧
      site.rowKey row = .ok key ∧ p[key]? = some raw ∧ site.Clashes row raw) ∧
    ∃ after, (m.run node).1.store.parts[(⟨m.space, part⟩ : Address)]? = some after ∧
      (part ∈ m.listed node → after = p) ∧
      (part ∉ m.listed node → ∀ e key, m.Deletes part e → site.InRange e key → key ∉ after) := by
  intro site
  have hrefused : (¬ ∀ e, m.Deletes part e → site.Removable p e) ↔
      ∃ (row : RowId) (key raw : Bytes), m.Deletes part row.entity ∧
        site.rowKey row = .ok key ∧ p[key]? = some raw ∧ site.Clashes row raw := by
    constructor
    · intro hnot
      obtain ⟨e, he⟩ := not_forall.1 hnot
      obtain ⟨he, hnot⟩ := Classical.not_imp.1 he
      obtain ⟨row, key, raw, rfl, hrow⟩ := (Site.not_removable_iff (hfits e he)).1 hnot
      exact ⟨row, key, raw, he, hrow⟩
    · rintro ⟨row, key, raw, he, hrow⟩ hall
      exact (Site.not_removable_iff (hfits _ he)).2 ⟨row, key, raw, rfl, hrow⟩ (hall _ he)
  rw [← hrefused]
  rcases deletion_of_writable hdeletion hlayout hrequested hwritable hp with
    ⟨hall, hlisted, change, hwhole, hcontent⟩ | ⟨hnot, hlisted, hcontent⟩
  · exact ⟨iff_of_false hlisted (not_not.2 hall), change p, hcontent, fun h => absurd h hlisted,
      fun _ e key he hrange => hwhole.not_mem_of_inRange hdeletion hlayout hp he hrange⟩
  · exact ⟨iff_of_true hlisted hnot, p, hcontent, fun _ => rfl, fun h => absurd hlisted h⟩

end BatchMutation

/-- People whose age may be missing. -/
def Catalog.ageless : Catalog :=
  (addSpace {} 1 4).addTag 1 3 "person" {
    columns := [{ name := "age", ty := .int64, nullable := true }] }

/-- An index over ages that may not be missing. -/
def Index.byAge : Index :=
  { id := 5, name := "by_age", owner := .tag 3, columns := [{ name := "age", ty := .int64 }] }

/-- A node that stores a person without an age, and got an index over ages afterwards. -/
def Node.lateIndexed : Node :=
  let stored := (fresh .ageless (.table []) {}).after [.addPart ⟨1, 1⟩ default,
    .batch (.addVertices {
      space := 1
      parts := .insert ∅ 1 [{ id := "a", tags := [{ tag := 3, props := [.null] }] }] })]
  { stored with catalog := stored.catalog.addIndex 1 .byAge }

namespace BatchMutation

/-- The deletion of a person without an age is refused since there is no place for it in the index,
and the person stays. -/
theorem deletion_refused_of_ageless :
    let delete := deleteVertices { space := 1, parts := .insert ∅ 1 ["a"] }
    let site : Site := ⟨Node.lateIndexed.catalog, 1, 4, 1⟩
    ∃ p, Node.lateIndexed.store.parts[(⟨1, 1⟩ : Address)]? = some p ∧
      (∃ (row : RowId) (key raw : Bytes), delete.Deletes 1 row.entity ∧
        site.rowKey row = .ok key ∧ p[key]? = some raw ∧ site.Clashes row raw) ∧
      (delete.run Node.lateIndexed).1.store.parts[(⟨1, 1⟩ : Address)]? = some p := by
  intro delete site
  have hthere : (Node.lateIndexed.store.parts[(⟨1, 1⟩ : Address)]?).isSome = true := by
    decide +kernel
  obtain ⟨p, hp⟩ := Option.isSome_iff_exists.1 hthere
  have hvids : (Std.ExtTreeMap.insert ∅ 1 ["a"] : PartMap (List VertexId))[(1 : PartId)]? =
      some ["a"] := by decide
  have hdeletion : delete.isDeletion = true := rfl
  have hlayout : Node.lateIndexed.layout delete.space delete.onEdges = .ok ⟨4, [.byAge]⟩ := by
    decide +kernel
  have hrequested : delete.Requests 1 := PartMap.mem_iff_getElem?.2 ⟨_, hvids⟩
  have hwritable : Node.lateIndexed.Writable ⟨delete.space, 1⟩ := by decide +kernel
  have hfits : ∀ e, delete.Deletes 1 e → e.Fits 4 := by
    intro e he
    obtain ⟨vid, hvid, rfl⟩ := (deletes_deleteVertices_iff hvids).1 he
    rw [List.mem_singleton.1 hvid]
    decide
  have hlisted : (1 : PartId) ∈ delete.listed Node.lateIndexed := by decide +kernel
  obtain ⟨hrefused, after, hafter, hkept, -⟩ :=
    deletion_refused_iff hdeletion hlayout hrequested hwritable hp hfits
  exact ⟨p, hp, hrefused.1 hlisted, hkept hlisted ▸ hafter⟩

/-- Not every stored entity can be deleted: an index that was registered after a row was stored can
refuse to take what is in the row, and then a deletion of the row is refused though its ids fit and
nothing keeps the partition from writes. -/
theorem undeletable_person :
    let delete := deleteVertices { space := 1, parts := .insert ∅ 1 ["a"] }
    let key : Bytes := [1, 0, 0, 1, 97, 0, 0, 0, 128, 0, 0, 3]
    Node.lateIndexed.layout 1 false = .ok ⟨4, [.byAge]⟩ ∧ Node.lateIndexed.Writable ⟨1, 1⟩ ∧
      delete.Deletes 1 (.vertex "a") ∧ (Entity.vertex "a").Fits 4 ∧
      (1 : PartId) ∈ delete.listed Node.lateIndexed ∧
      Key.vertex 4 1 "a" 3 = .ok key ∧
      (((delete.run Node.lateIndexed).1.store.parts[(⟨1, 1⟩ : Address)]?).bind (·[key]?)).isSome =
        true := by
  intro delete key
  have hvids : (Std.ExtTreeMap.insert ∅ 1 ["a"] : PartMap (List VertexId))[(1 : PartId)]? =
      some ["a"] := by decide
  exact ⟨by decide +kernel, by decide +kernel, .vertex hvids List.mem_cons_self, by decide,
    by decide +kernel, by decide, by decide +kernel⟩

end BatchMutation

/-- In a partition that is complete every entity whose ids fit can be removed. -/
theorem Site.Complete.removable {site : Site} {p : Partition} (h : site.Complete p) {e : Entity}
    (hfits : e.Fits site.vidLen) : site.Removable p e :=
  ⟨hfits, fun row key raw _ hkey hraw => (h row key raw hkey hraw).keyable⟩

namespace Node

/-- In a node whose rows have all their index entries, as every run under a sound catalog leaves it,
a deletion of what fits is carried out in every partition that takes writes, and leaves no row of
what it deletes. -/
theorem Indexed.deletable {catalog : Catalog} {node : Node} (h : node.Indexed catalog)
    {m : BatchMutation} (hdeletion : m.isDeletion = true) {layout : SpaceLayout}
    (hlayout : node.layout m.space m.onEdges = .ok layout) {part : PartId}
    (hrequested : m.Requests part) (hwritable : node.Writable ⟨m.space, part⟩) {p : Partition}
    (hp : node.store.parts[(⟨m.space, part⟩ : Address)]? = some p)
    (hfits : ∀ e, m.Deletes part e → e.Fits layout.vidLen) :
    part ∉ m.listed node ∧ ∃ after,
      (m.run node).1.store.parts[(⟨m.space, part⟩ : Address)]? = some after ∧
      ∀ e key, m.Deletes part e →
        Site.InRange ⟨catalog, m.space, layout.vidLen, part⟩ e key → key ∉ after := by
  obtain ⟨hsteady, hintact⟩ := h
  obtain rfl := hsteady.catalog_eq
  have hcomplete := (hintact _ p hp).complete _ (layout_eq_ok.1 hlayout).1
  rcases m.deletion_of_writable hdeletion hlayout hrequested hwritable hp with
    ⟨-, hlisted, change, hwhole, hcontent⟩ | ⟨hnot, -, -⟩
  · refine ⟨hlisted, change p, hcontent, fun e key he hrange => ?_⟩
    exact hwhole.not_mem_of_inRange hdeletion hlayout hp he hrange
  · exact absurd (fun e he => hcomplete.removable (hfits e he)) hnot

end Node

end GraphStore
