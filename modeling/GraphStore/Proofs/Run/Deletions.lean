import GraphStore.Proofs.Run.MissingEntries

/-!
# What a deletion of vertices removes

A deletion of vertices that is not refused takes the rows of the listed vertices under all tags,
with the index entries of those that can be read. Vertices are told apart by their padded ids, so
one whose id begins with a listed id, or comes right after it, is left alone.
-/

namespace GraphStore

/-- The rows of a vertex are those of its tags. -/
theorem RowId.entity_eq_vertex {row : RowId} {vid : VertexId} :
    row.entity = .vertex vid ↔ ∃ tag, row = .tag vid tag := by
  cases row with
  | tag other tag =>
    constructor
    · intro h
      cases h
      exact ⟨tag, rfl⟩
    · rintro ⟨_, h⟩
      cases h
      rfl
  | edge edge => exact ⟨nofun, fun ⟨_, h⟩ => nomatch h⟩

namespace Site

variable {site : Site} {p : Partition} {vid : VertexId} {key entry : Bytes}

/-- Where only rows and index entries are stored, a vertex is stored under the keys of its tags. -/
theorem OnlyOf.inRange_vertex_iff {sort : RowId → Prop} (h : site.OnlyOf sort p) (hmem : key ∈ p) :
    site.InRange (.vertex vid) key ↔ ∃ tag, site.rowKey (.tag vid tag) = .ok key := by
  rw [h.inRange_iff hmem]
  simp only [RowId.entity_eq_vertex]
  constructor
  · rintro ⟨_, ⟨tag, rfl⟩, hown⟩
    exact ⟨tag, hown⟩
  · rintro ⟨tag, hown⟩
    exact ⟨_, ⟨tag, rfl⟩, hown⟩

/-- The index keys of the rows stored for a vertex are those of its tags. -/
theorem storedEntry_vertex_iff : site.StoredEntry p (.vertex vid) entry ↔
    ∃ tag, ∃ key raw : Bytes, site.rowKey (.tag vid tag) = .ok key ∧ p[key]? = some raw ∧
      site.HasEntry (.tag vid tag) raw entry := by
  simp only [StoredEntry, RowId.entity_eq_vertex]
  constructor
  · rintro ⟨_, key, raw, ⟨tag, rfl⟩, hkey, hraw, hentry⟩
    exact ⟨tag, key, raw, hkey, hraw, hentry⟩
  · rintro ⟨tag, key, raw, hkey, hraw, hentry⟩
    exact ⟨_, key, raw, ⟨tag, rfl⟩, hkey, hraw, hentry⟩

end Site

namespace Node

variable {node : Node} {req : DeleteVertices} {part : PartId} {vidLen : Nat} {p : Partition}
  {vids : List VertexId}

/-- A deletion of vertices that is not refused removes the keys of the listed vertices under all
tags, and the index keys of the rows stored there, as far as these can be read. Every other key
keeps its value, among them those of the rows and index entries of other vertices and of all
edges. -/
theorem deleteVertices_removes_exactly (hregistered : node.catalog.Registered)
    (hhonest : node.store.HonestFailures) (hvidLen : node.catalog.vidLen req.space = .ok vidLen)
    (hp : node.store.parts[(⟨req.space, part⟩ : Address)]? = some p)
    (hknown : Site.OnlyOf ⟨node.catalog, req.space, vidLen, part⟩ (fun _ => True) p)
    (hvids : req.parts[part]? = some vids)
    (hlisted : part ∉ (node.deleteVertices req).2.failed.map (·.part)) :
    ∃ after, (node.deleteVertices req).1.store.parts[(⟨req.space, part⟩ : Address)]? = some after ∧
      (∀ key raw : Bytes, after[key]? = some raw ↔ p[key]? = some raw ∧ ¬ ∃ vid ∈ vids, ∃ tag,
        Key.vertex vidLen part vid tag = .ok key ∨
          ∃ own stored : Bytes, Key.vertex vidLen part vid tag = .ok own ∧ p[own]? = some stored ∧
            Site.HasEntry ⟨node.catalog, req.space, vidLen, part⟩ (.tag vid tag) stored key) ∧
      ∀ row key, (∀ other tag, row = .tag other tag →
          ∀ vid ∈ vids, Key.padVid vidLen other ≠ Key.padVid vidLen vid) →
        (Site.rowKey ⟨node.catalog, req.space, vidLen, part⟩ row = .ok key ∨
          Site.IsEntryOf ⟨node.catalog, req.space, vidLen, part⟩ row key) →
        after[key]? = p[key]? := by
  let site : Site := ⟨node.catalog, req.space, vidLen, part⟩
  obtain ⟨change, hwhole, hcontent⟩ := BatchMutation.whole_of_not_listed (.deleteVertices req)
    hhonest nofun (PartMap.mem_iff_getElem?.2 ⟨vids, hvids⟩) hlisted
  have hloses : site.Loses ((BatchMutation.deleteVertices req).Deletes part) p (change p) :=
    hwhole.loses rfl hp hvidLen
  refine ⟨change p, hcontent.trans (congrArg (Option.map change) hp), fun key raw => ?_,
    fun row key hother hkey =>
      hloses.kept hregistered (fun own ownKey hdeleted hown hrow => ?_) hkey⟩
  · refine (hloses key raw).trans (and_congr_right fun hraw => ?_)
    have hmem : key ∈ p := Partition.mem_iff_getElem?.2 ⟨raw, hraw⟩
    constructor
    · rintro hkept ⟨vid, hvid, tag, hown | hentry⟩
      · exact (hkept _ (.vertex hvids hvid)).1 ((hknown.inRange_vertex_iff hmem).2 ⟨tag, hown⟩)
      · exact (hkept _ (.vertex hvids hvid)).2 (Site.storedEntry_vertex_iff.2 ⟨tag, hentry⟩)
    · intro hnone e hdeleted
      obtain ⟨vid, hvid, rfl⟩ := (BatchMutation.deletes_deleteVertices_iff hvids).1 hdeleted
      refine ⟨fun hrange => ?_, fun hstored => ?_⟩
      · obtain ⟨tag, hown⟩ := (hknown.inRange_vertex_iff hmem).1 hrange
        exact hnone ⟨vid, hvid, tag, .inl hown⟩
      · obtain ⟨tag, hentry⟩ := Site.storedEntry_vertex_iff.1 hstored
        exact hnone ⟨vid, hvid, tag, .inr hentry⟩
  · -- A row with the key of a listed vertex is a row of that vertex.
    obtain ⟨vid, hvid, howned⟩ := (BatchMutation.deletes_deleteVertices_iff hvids).1 hdeleted
    obtain ⟨tag, rfl⟩ := RowId.entity_eq_vertex.1 howned
    cases row with
    | tag other otherTag => exact hother other otherTag rfl vid hvid (Key.vertex_inj hrow hown).1
    | edge edge =>
      have hhead := (Key.head?_of_edge hrow).symm.trans (Key.head?_of_vertex hown)
      exact absurd hhead (by decide)

/-- Of two persons of whom one's id begins with the other's, the deletion of the shorter id removes
one alone. -/
theorem deleteVertices_removes_one_person :
    let node := (fresh .people (.table []) {}).after
      [.addPart ⟨1, 1⟩ default, .addPerson "a" 7, .addPerson "ab" 7]
    let req : DeleteVertices := { space := 1, parts := .insert ∅ 1 ["a"] }
    ∃ p after, node.store.parts[(⟨1, 1⟩ : Address)]? = some p ∧
      (node.deleteVertices req).1.store.parts[(⟨1, 1⟩ : Address)]? = some after ∧
      (∀ key raw : Bytes, after[key]? = some raw ↔ p[key]? = some raw ∧ ¬ ∃ vid ∈ ["a"], ∃ tag,
        Key.vertex 4 1 vid tag = .ok key ∨
          ∃ own stored : Bytes, Key.vertex 4 1 vid tag = .ok own ∧ p[own]? = some stored ∧
            Site.HasEntry ⟨.people, 1, 4, 1⟩ (.tag vid tag) stored key) ∧
      ∀ row key, (∀ other tag, row = .tag other tag →
          ∀ vid ∈ ["a"], Key.padVid 4 other ≠ Key.padVid 4 vid) →
        (Site.rowKey ⟨.people, 1, 4, 1⟩ row = .ok key ∨ Site.IsEntryOf ⟨.people, 1, 4, 1⟩ row key) →
        after[key]? = p[key]? := by
  intro node req
  have hindexed : node.Indexed .people := by
    refine indexed_after Catalog.people_sound (.table []) {} ?_
    simp only [List.forall_mem_cons]
    exact ⟨trivial, Event.addPerson_finite "a" 7, Event.addPerson_finite "ab" 7, nofun⟩
  have hhonest : node.store.HonestFailures :=
    honestFailures_after .people (.table []) {} (by simp [Event.Honest, Event.addPerson])
  have hcatalog : node.catalog = .people := hindexed.1.catalog_eq
  have hwidth : node.catalog.vidLen 1 = .ok 4 := hcatalog ▸ Catalog.vidLen_people
  have hthere : (node.store.parts[(⟨1, 1⟩ : Address)]?).isSome = true := by decide +kernel
  obtain ⟨p, hp⟩ := Option.isSome_iff_exists.1 hthere
  have hknown := (hindexed.2 _ p hp).known 4 (hcatalog ▸ hwidth)
  have hvids : req.parts[(1 : PartId)]? = some ["a"] := by decide
  have hlisted : (1 : PartId) ∉ (node.deleteVertices req).2.failed.map (·.part) := by decide +kernel
  obtain ⟨after, hafter, hexact, hkept⟩ := deleteVertices_removes_exactly
    (hcatalog ▸ Catalog.people_sound.registered) hhonest hwidth hp (hcatalog ▸ hknown) hvids hlisted
  rw [hcatalog] at hexact hkept
  exact ⟨p, after, hp, hafter, hexact, hkept⟩

end Node

end GraphStore
