import GraphStore.Proofs.Run.MissingEntries

/-!
# Deletions that undo insertions

An insertion makes rows and index entries from the request, and a deletion finds them again in what
is stored: by the key ranges of vertices or the keys of edges, and by reading the stored rows. Where
nothing was stored before, the deletion of what was inserted leaves nothing behind.
-/

namespace GraphStore

namespace Site

variable {site : Site} {gone : Entity → Prop} {p after : Partition} {batch : List Entry}
  {rows : List FullRow} {r : FullRow}

/-- A partition that holds no row and no index entry of an entity. -/
def Absent (site : Site) (e : Entity) (p : Partition) : Prop :=
  ∀ key ∈ p, ¬ site.InRange e key ∧ ∀ row : RowId, row.entity = e → ¬ site.IsEntryOf row key

/-- Of rows with different keys each is stored as it is put. -/
theorem MadeOf.getElem?_put (h : site.MadeOf batch rows)
    (hdistinct : ((rows.map (·.row)).map site.rowKey).Nodup) (hr : r ∈ rows) :
    (p.put batch)[r.key]? = some r.raw := by
  have hkey : r.key ∈ Partition.keysOf batch := List.mem_map.2 ⟨_, h.key_mem hr, rfl⟩
  obtain ⟨raw, hraw⟩ := Partition.mem_iff_getElem?.1 (Partition.mem_put (p := p).2 (.inl hkey))
  obtain ⟨other, hother, hsame, rfl⟩ :=
    h.full_of_mem (h.full r hr).key (Partition.mem_of_getElem?_put hraw hkey)
  -- The row that the key was put for last is this one, since no other row has its key.
  rw [List.map_map] at hdistinct
  have hkeys : site.rowKey other.row = site.rowKey r.row := by
    rw [(h.full other hother).key, (h.full r hr).key, hsame]
  rw [hraw, List.inj_on_of_nodup_map hdistinct hother hr hkeys]

/-- What a deletion takes after a put of absent rows with different keys is what was put. -/
theorem Loses.undoes_put (h : site.Loses gone (p.put batch) after) (hbatch : site.MadeOf batch rows)
    (hrows : ∀ r ∈ rows, gone r.row.entity)
    (hdistinct : ((rows.map (·.row)).map site.rowKey).Nodup)
    (habsent : ∀ e, gone e → site.Absent e p) : after = p := by
  have hkept (key : Bytes) (hmem : key ∈ p) (e : Entity) (he : gone e) :
      ¬ site.InRange e key ∧ ¬ site.StoredEntry (p.put batch) e key := by
    obtain ⟨hrange, hentries⟩ := habsent e he key hmem
    refine ⟨hrange, ?_⟩
    rintro ⟨row, own, raw, howned, -, -, hentry⟩
    exact hentries row howned hentry.isEntryOf
  have htaken (key : Bytes) (hput : key ∈ Partition.keysOf batch) :
      ∃ e, gone e ∧ (site.InRange e key ∨ site.StoredEntry (p.put batch) e key) := by
    obtain ⟨entry, hentry, rfl⟩ := List.mem_map.1 hput
    obtain ⟨r, hr, hentry⟩ := (hbatch.mem_iff _).1 hentry
    have hfull := hbatch.full r hr
    refine ⟨r.row.entity, hrows r hr, ?_⟩
    rcases List.mem_cons.1 hentry with rfl | hentry
    · exact .inl (inRange_of_rowKey hfull.key)
    · obtain ⟨found, hfound, rfl⟩ := List.mem_map.1 hentry
      exact .inr ⟨r.row, r.key, r.raw, rfl, hfull.key, hbatch.getElem?_put hdistinct hr,
        hfull.tight found hfound⟩
  -- A key that was put goes, and was not there before; any other key is as it was, and stays.
  refine Std.ExtTreeMap.ext_getElem? fun key => Option.ext fun raw => (h key raw).trans ?_
  by_cases hput : key ∈ Partition.keysOf batch
  · obtain ⟨e, he, hgone⟩ := htaken key hput
    refine iff_of_false (fun hstays => not_or.2 (hstays.2 e he) hgone) fun hraw => ?_
    exact not_or.2 (hkept key (Partition.mem_iff_getElem?.2 ⟨raw, hraw⟩) e he) hgone
  · rw [Partition.getElem?_put_of_notMem hput]
    exact and_iff_left_of_imp fun hraw => hkept key (Partition.mem_iff_getElem?.2 ⟨raw, hraw⟩)

end Site

namespace BatchMutation

variable {node : Node} {m : BatchMutation} {part : PartId}

/-- The vertices and edges that an insertion puts into a partition. -/
inductive Inserts : BatchMutation → PartId → Entity → Prop where
  | vertex {req : AddVertices} {part : PartId} {vertices : List NewVertex} {v : NewVertex}
      (hitems : req.parts[part]? = some vertices) (hvertex : v ∈ vertices) :
      Inserts (.addVertices req) part (.vertex v.id)
  | edge {req : AddEdges} {part : PartId} {edges : List NewEdge} {edge : NewEdge}
      (hitems : req.parts[part]? = some edges) (hedge : edge ∈ edges) :
      Inserts (.addEdges req) part (.edge edge.key)
  | chainedEdge {req : AddEdges} {schedule : List Nat} {part : PartId} {edges : List NewEdge}
      {edge : NewEdge} (hitems : req.parts[part]? = some edges) (hedge : edge ∈ edges) :
      Inserts (.addEdgesChained req schedule) part (.edge edge.key)

/-- The vertices that are inserted are those that the request lists for the partition. -/
theorem inserts_addVertices_iff {req : AddVertices} {vertices : List NewVertex}
    (hitems : req.parts[part]? = some vertices) {e : Entity} :
    (addVertices req).Inserts part e ↔ ∃ v ∈ vertices, e = .vertex v.id := by
  constructor
  · intro h
    cases h with
    | vertex hitems' hvertex =>
      obtain rfl := Option.some.inj (hitems.symm.trans hitems')
      exact ⟨_, hvertex, rfl⟩
  · rintro ⟨v, hvertex, rfl⟩
    exact .vertex hitems hvertex

/-- The rows that are put are rows of what is inserted. -/
theorem inserts_of_mem_rows {row : RowId} (h : row ∈ m.rows part) : m.Inserts part row.entity := by
  have hsome {α : Type} {items : Option (List α)} {item : α} (hmem : item ∈ items.getD []) :
      ∃ found, items = some found ∧ item ∈ found := by
    cases items with
    | none => cases hmem
    | some found => exact ⟨found, rfl, hmem⟩
  cases m with
  | addVertices req =>
    obtain ⟨item, hitem, rfl⟩ := List.mem_map.1 h
    obtain ⟨v, hvertex, hitem⟩ := List.mem_flatMap.1 hitem
    obtain ⟨t, -, rfl⟩ := List.mem_map.1 hitem
    obtain ⟨vertices, hitems, hvertex⟩ := hsome hvertex
    exact .vertex hitems hvertex
  | addEdges req =>
    obtain ⟨edge, hedge, rfl⟩ := List.mem_map.1 h
    obtain ⟨edges, hitems, hedge⟩ := hsome hedge
    exact .edge hitems hedge
  | addEdgesChained req schedule =>
    obtain ⟨edge, hedge, rfl⟩ := List.mem_map.1 h
    obtain ⟨edges, hitems, hedge⟩ := hsome hedge
    exact .chainedEdge hitems hedge
  | deleteVertices req => cases h
  | deleteEdges req => cases h

/-- A deletion of what an insertion put, right after it, leaves the partition as it was before, when
nothing of that was stored there and no two rows of the insertion have the same key. -/
theorem deletion_undoes_insertion {insert delete : BatchMutation} (hsound : node.catalog.Sound)
    (hhonest : node.store.HonestFailures)
    (hwriter : ∀ req schedule, insert = addEdgesChained req schedule → node.chainWriter = .toSource)
    (hfinite : insert.Finite) (hinsertion : insert.isDeletion = false)
    (hdeletion : delete.isDeletion = true) (hspace : delete.space = insert.space)
    (hsame : ∀ e, delete.Deletes part e ↔ insert.Inserts part e) {vidLen : Nat}
    (hvidLen : node.catalog.vidLen insert.space = .ok vidLen) {p : Partition}
    (hp : node.store.parts[(⟨insert.space, part⟩ : Address)]? = some p)
    (habsent : ∀ e, insert.Inserts part e →
      Site.Absent ⟨node.catalog, insert.space, vidLen, part⟩ e p)
    (hdistinct : ((insert.rows part).map
      (Site.rowKey ⟨node.catalog, insert.space, vidLen, part⟩)).Nodup)
    (hinserted : insert.Requests part ∧ part ∉ insert.listed node)
    (hdeleted : delete.Requests part ∧ part ∉ delete.listed (insert.run node).1) :
    (delete.run (insert.run node).1).1.store.parts[(⟨insert.space, part⟩ : Address)]? = some p := by
  obtain ⟨change, hwhole, hcontent⟩ :=
    insert.whole_of_not_listed hhonest hwriter hinserted.1 hinserted.2
  obtain ⟨batch, hputs, rfl⟩ := hwhole.puts hinsertion
  obtain ⟨rows, hrows, hnamed⟩ := hputs.madeOf hsound hfinite hvidLen
  -- The insertion leaves the catalog and the failures as they are.
  obtain ⟨cache, hsetting⟩ := insert.run_sameSetting hwriter
  have hcatalog : (insert.run node).1.catalog = node.catalog := hsetting.catalog
  have hhonest' : (insert.run node).1.store.HonestFailures := fun addr => by
    rw [hsetting.failures]
    exact hhonest addr
  have hnotChained : ∀ req schedule, delete = addEdgesChained req schedule →
      (insert.run node).1.chainWriter = .toSource := by
    rintro req schedule rfl
    cases hdeletion
  obtain ⟨change, hwhole', hcontent'⟩ :=
    delete.whole_of_not_listed hhonest' hnotChained hdeleted.1 hdeleted.2
  rw [hspace, hcontent, hp] at hcontent'
  have hstored : (insert.run node).1.store.parts[(⟨delete.space, part⟩ : Address)]? =
      some (p.put batch) := by
    rw [hspace, hcontent, hp]
    rfl
  have hloses := hwhole'.loses hdeletion hstored (by rw [hcatalog, hspace, hvidLen])
  rw [hcatalog, hspace] at hloses
  have hgone (r : FullRow) (hr : r ∈ rows) : delete.Deletes part r.row.entity := by
    have hmem : r.row ∈ insert.rows part := hnamed ▸ List.mem_map_of_mem hr
    exact (hsame _).2 (inserts_of_mem_rows hmem)
  have hundone := hloses.undoes_put hrows hgone (hnamed ▸ hdistinct)
    fun e he => habsent e ((hsame e).1 he)
  exact hcontent'.trans (congrArg some hundone)

/-- A person that is inserted beside another one whose id begins alike and deleted again leaves the
partition with that other one alone, as it was before. -/
theorem deletion_undoes_insertion_of_person :
    let node := (Node.fresh .people (.table []) {}).after
      [.addPart ⟨1, 1⟩ default, .addPerson "ab" 7]
    let person : NewVertex := { id := "a", tags := [{ tag := 3, props := [.int 7] }] }
    let insert := addVertices { space := 1, parts := .insert ∅ 1 [person] }
    let delete := deleteVertices { space := 1, parts := .insert ∅ 1 ["a"] }
    ∃ p, node.store.parts[(⟨1, 1⟩ : Address)]? = some p ∧ p.keys.length = 2 ∧
      (delete.run (insert.run node).1).1.store.parts[(⟨1, 1⟩ : Address)]? = some p := by
  intro node person insert delete
  have hindexed : node.Indexed .people := by
    refine Node.indexed_after Catalog.people_sound (.table []) {} ?_
    simp only [List.forall_mem_cons]
    exact ⟨trivial, Event.addPerson_finite "ab" 7, nofun⟩
  have hhonest : node.store.HonestFailures :=
    Node.honestFailures_after .people (.table []) {} (by simp [Event.Honest, Event.addPerson])
  have hcatalog : node.catalog = .people := hindexed.1.catalog_eq
  let other : Bytes := [1, 0, 0, 1, 97, 98, 0, 0, 128, 0, 0, 3]
  let otherEntry : Bytes := [3, 0, 0, 1, 128, 0, 0, 5, 128, 0, 0, 0, 0, 0, 0, 7, 97, 98, 0, 0]
  have hkeys : (node.store.parts[(⟨1, 1⟩ : Address)]?).map (·.keys) = some [other, otherEntry] := by
    decide +kernel
  obtain ⟨p, hp, hentries⟩ := Option.map_eq_some_iff.1 hkeys
  have habsent : Site.Absent ⟨.people, 1, 4, 1⟩ (.vertex "a") p := by
    intro key hmem
    rw [← Std.ExtTreeMap.mem_keys, hentries] at hmem
    rcases List.mem_cons.1 hmem with rfl | hmem
    · refine ⟨?_, fun row _ hentry => absurd hentry.head? (by decide)⟩
      rintro ⟨stem, hstem, hstart⟩
      obtain rfl : [1, 0, 0, 1, 97, 0, 0, 0] = stem := Except.ok.inj hstem
      exact absurd hstart (by decide)
    · obtain rfl := List.mem_singleton.1 hmem
      refine ⟨fun hrange => hrange.head?_ne rfl, ?_⟩
      -- The id in the one index key is that of the other person.
      rintro row howned ⟨index, props, ⟨-, id, hid⟩, hentry⟩
      obtain rfl := Catalog.index_people hid
      have hentity := IndexLayout.encodeEntity_of_encodeKey (Site.encodeKey_of_entryKey hentry)
      rw [howned] at hentity
      exact absurd hentity (by decide)
  have hvertices : (Std.ExtTreeMap.insert ∅ 1 [person] : PartMap (List NewVertex))[(1 : PartId)]? =
      some [person] := by decide
  have hvids : (Std.ExtTreeMap.insert ∅ 1 ["a"] : PartMap (List VertexId))[(1 : PartId)]? =
      some ["a"] := by decide
  have hinserts (e : Entity) : insert.Inserts 1 e ↔ e = .vertex "a" := by
    rw [inserts_addVertices_iff hvertices]
    simp [person]
  have hsame (e : Entity) : delete.Deletes 1 e ↔ insert.Inserts 1 e := by
    rw [hinserts, deletes_deleteVertices_iff hvids]
    simp
  have hrows : insert.rows 1 = [.tag "a" 3] := by decide
  have hdistinct : ((insert.rows 1).map (Site.rowKey ⟨node.catalog, 1, 4, 1⟩)).Nodup := by
    rw [hrows]
    exact List.nodup_singleton _
  have hinsert : insert.Requests 1 := PartMap.mem_iff_getElem?.2 ⟨_, hvertices⟩
  have hdelete : delete.Requests 1 := PartMap.mem_iff_getElem?.2 ⟨_, hvids⟩
  have hinserted : (1 : PartId) ∉ insert.listed node := by decide +kernel
  have hdeleted : (1 : PartId) ∉ delete.listed (insert.run node).1 := by decide +kernel
  have hfinite : insert.Finite := Event.addPerson_finite "a" 7
  have hwriter : ∀ req schedule, insert = addEdgesChained req schedule →
      node.chainWriter = .toSource := fun _ _ _ => rfl
  have hinsertion : insert.isDeletion = false := rfl
  have hdeletion : delete.isDeletion = true := rfl
  have hspace : delete.space = insert.space := rfl
  have hwidth : node.catalog.vidLen insert.space = .ok 4 := hcatalog ▸ Catalog.vidLen_people
  refine ⟨p, hp, by rw [hentries]; rfl, ?_⟩
  exact deletion_undoes_insertion (hcatalog ▸ Catalog.people_sound) hhonest hwriter hfinite
    hinsertion hdeletion hspace hsame hwidth hp
    (fun e he => (hinserts e).1 he ▸ hcatalog ▸ habsent) hdistinct ⟨hinsert, hinserted⟩
    ⟨hdelete, hdeleted⟩

end BatchMutation

end GraphStore
