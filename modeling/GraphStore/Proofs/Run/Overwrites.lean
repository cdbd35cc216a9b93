import GraphStore.Proofs.Key.Distinct
import GraphStore.Proofs.Run.Event

/-!
# Rows that are not overwritten

A step only touches rows with the keys of those it names. What is stored for a vertex or an edge
therefore stays until a step names one that is the same up to the padding of ids.
-/

namespace GraphStore

/-- What is stored under a key of a partition. -/
def Store.stored? (s : Store) (addr : Address) (key : Bytes) : Option Bytes :=
  s.parts[addr]?.bind (·[key]?)

variable {node : Node} {addr : Address} {vidLen : Nat} {row : RowId} {key : Bytes}

namespace Event

/-- A step leaves a row as it is, if all rows it names differ from it in more than padding. -/
theorem stored?_run {event : Event} (hwriter : node.chainWriter = .toSource)
    (hvidLen : node.catalog.vidLen addr.space = .ok vidLen)
    (hkey : Site.rowKey ⟨node.catalog, addr.space, vidLen, addr.part⟩ row = .ok key)
    (hother : ∀ named, event.Names addr named → named.unpadded ≠ row.unpadded) :
    (event.run node).1.store.stored? addr key = node.store.stored? addr key := by
  rw [Store.stored?, Store.stored?]
  cases hafter : (event.run node).1.store.parts[addr]? with
  | none =>
    cases hp : node.store.parts[addr]? with
    | none => rfl
    | some p =>
      have hthere := event.isSome_parts hwriter (Option.isSome_of_eq_some hp)
      rw [hafter] at hthere
      cases hthere
  | some after =>
    rcases event.effect hwriter hafter with ⟨hnone, rfl⟩ | ⟨p, hp, heffect⟩
    · rw [hnone]
      simp
    · rw [hp]
      refine (heffect.touches hp hvidLen).kept row key hkey fun named hnames hsame => ?_
      exact hother named hnames ((Site.rowKey_eq_iff hsame hkey).1 rfl)

end Event

namespace Node

/-- A node of the catalog and the chain writer it started with, and of one stored value. -/
structure Keeps (start : Node) (addr : Address) (key : Bytes) (node : Node) : Prop where
  catalog_eq : node.catalog = start.catalog
  chainWriter_eq : node.chainWriter = .toSource
  stored?_eq : node.store.stored? addr key = start.store.stored? addr key

variable {start : Node}

/-- A step that names no row with the key keeps what is stored. -/
theorem Keeps.step {event : Event} (h : start.Keeps addr key node)
    (hvidLen : start.catalog.vidLen addr.space = .ok vidLen)
    (hkey : Site.rowKey ⟨start.catalog, addr.space, vidLen, addr.part⟩ row = .ok key)
    (hother : ∀ named, event.Names addr named → named.unpadded ≠ row.unpadded) :
    start.Keeps addr key (event.run node).1 := by
  obtain ⟨hcatalog, hwriter, -⟩ := setting_run h.chainWriter_eq event
  rw [← h.catalog_eq] at hvidLen hkey
  exact {
    catalog_eq := hcatalog.trans h.catalog_eq
    chainWriter_eq := hwriter
    stored?_eq := (event.stored?_run h.chainWriter_eq hvidLen hkey hother).trans h.stored?_eq }

/-- A run leaves a row as it is, if all rows its steps name differ from it in more than padding. -/
theorem stored?_after {events : List Event} (hwriter : node.chainWriter = .toSource)
    (hvidLen : node.catalog.vidLen addr.space = .ok vidLen)
    (hkey : Site.rowKey ⟨node.catalog, addr.space, vidLen, addr.part⟩ row = .ok key)
    (hother : ∀ event ∈ events, ∀ named, event.Names addr named → named.unpadded ≠ row.unpadded) :
    (node.after events).store.stored? addr key = node.store.stored? addr key := by
  have hkeeps : node.Keeps addr key (node.after events) :=
    after_induction ⟨rfl, hwriter, rfl⟩ fun _ event hevent hlater =>
      hlater.step hvidLen hkey (hother event hevent)
  exact hkeeps.stored?_eq

end Node

namespace Key

/-- In one partition, tag rows, edge rows and entries of one index with the same values have the same
key just when what they are of is the same up to the padding of ids. So what is stored for a vertex or
an edge stays as long as only others are put and deleted, which differ from it in more than that. -/
theorem distinct_up_to_padding (vidLen : Nat) (part : PartId) :
    (∀ vid tag other otherTag key otherKey, vertex vidLen part vid tag = .ok key →
      vertex vidLen part other otherTag = .ok otherKey →
      (key = otherKey ↔ VertexId.unpadded vid = VertexId.unpadded other ∧ tag = otherTag)) ∧
    (∀ e f key otherKey, edge vidLen part e = .ok key → edge vidLen part f = .ok otherKey →
      (key = otherKey ↔ e.unpadded = f.unpadded)) ∧
    (∀ index values entity other key otherKey,
      IndexLayout.encodeKey ⟨index, vidLen⟩ part values entity = .ok key →
      IndexLayout.encodeKey ⟨index, vidLen⟩ part values other = .ok otherKey →
      (∀ e, entity = .edge e ∨ other = .edge e → index.owner = .edge e.edgeType) →
      (key = otherKey ↔ entity.unpadded = other.unpadded)) ∧
    ∀ (node : Node) (events : List Event) (space : SpaceId) (row : RowId) (key : Bytes),
      node.chainWriter = .toSource → node.catalog.vidLen space = .ok vidLen →
      Site.rowKey ⟨node.catalog, space, vidLen, part⟩ row = .ok key →
      (∀ event ∈ events, ∀ named, event.Names ⟨space, part⟩ named →
        named.unpadded ≠ row.unpadded) →
      (node.after events).store.stored? ⟨space, part⟩ key =
        node.store.stored? ⟨space, part⟩ key := by
  refine ⟨?vertices, ?edges, ?entries, ?rows⟩
  case vertices => exact fun vid tag other otherTag key otherKey h h' => vertex_eq_iff h h'
  case edges => exact fun e f key otherKey h h' => edge_eq_iff h h'
  case entries =>
    intro index values entity other key otherKey h h' htype
    exact IndexLayout.encodeKey_eq_iff h h' (fun e he => htype e (.inl he))
      fun e he => htype e (.inr he)
  case rows =>
    intro node events space row key hwriter hvidLen hkey hother
    exact Node.stored?_after hwriter hvidLen hkey hother

/-- Ids of which one begins with the other have different keys, and a person stays when another one
of such an id is put. -/
theorem distinct_of_two_persons :
    let byAge : Index := {
      id := 5, name := "by_age", owner := .tag 3, columns := [{ name := "age", ty := .int64 }] }
    let node := (Node.fresh .people (.table []) {}).after [.addPart ⟨1, 1⟩ default, .addPerson "a" 7]
    let person : Bytes := [1, 0, 0, 1, 97, 0, 0, 0, 128, 0, 0, 3]
    let other : Bytes := [1, 0, 0, 1, 97, 98, 0, 0, 128, 0, 0, 3]
    let friend : Bytes :=
      [2, 0, 0, 1, 97, 0, 0, 0, 128, 0, 0, 7, 128, 0, 0, 0, 0, 0, 0, 0, 98, 0, 0, 0]
    let otherFriend : Bytes :=
      [2, 0, 0, 1, 97, 98, 0, 0, 128, 0, 0, 7, 128, 0, 0, 0, 0, 0, 0, 0, 98, 0, 0, 0]
    let entry : Bytes := [3, 0, 0, 1, 128, 0, 0, 5, 128, 0, 0, 0, 0, 0, 0, 7, 97, 0, 0, 0]
    let otherEntry : Bytes := [3, 0, 0, 1, 128, 0, 0, 5, 128, 0, 0, 0, 0, 0, 0, 7, 97, 98, 0, 0]
    (vertex 4 1 "a" 3 = .ok person ∧ vertex 4 1 "ab" 3 = .ok other ∧ person ≠ other) ∧
      (edge 4 1 ⟨"a", 7, 0, "b"⟩ = .ok friend ∧ edge 4 1 ⟨"ab", 7, 0, "b"⟩ = .ok otherFriend ∧
        friend ≠ otherFriend) ∧
      (IndexLayout.encodeKey ⟨byAge, 4⟩ 1 [.int 7] (.vertex "a") = .ok entry ∧
        IndexLayout.encodeKey ⟨byAge, 4⟩ 1 [.int 7] (.vertex "ab") = .ok otherEntry ∧
        entry ≠ otherEntry) ∧
      (node.store.stored? ⟨1, 1⟩ person).isSome = true ∧
        (node.after [.addPerson "ab" 8]).store.stored? ⟨1, 1⟩ person =
          node.store.stored? ⟨1, 1⟩ person := by
  intro byAge node person other friend otherFriend entry otherEntry
  obtain ⟨hvertices, hedges, hentries, hrows⟩ := distinct_up_to_padding 4 1
  have hperson : vertex 4 1 "a" 3 = .ok person := by decide
  have hother : vertex 4 1 "ab" 3 = .ok other := by decide
  have hfriend : edge 4 1 ⟨"a", 7, 0, "b"⟩ = .ok friend := by decide
  have hotherFriend : edge 4 1 ⟨"ab", 7, 0, "b"⟩ = .ok otherFriend := by decide
  have hentry : IndexLayout.encodeKey ⟨byAge, 4⟩ 1 [.int 7] (.vertex "a") = .ok entry := by decide
  have hotherEntry : IndexLayout.encodeKey ⟨byAge, 4⟩ 1 [.int 7] (.vertex "ab") = .ok otherEntry := by
    decide
  have hids : VertexId.unpadded "a" ≠ VertexId.unpadded "ab" := by decide
  have hsteady : node.Steady .people :=
    Node.after_induction ⟨rfl, rfl, rfl⟩ fun _ event _ hnode => hnode.step event
  have hwidth : node.catalog.vidLen 1 = .ok 4 := hsteady.catalog_eq ▸ Catalog.vidLen_people
  refine ⟨⟨hperson, hother, fun heq => ?_⟩, ⟨hfriend, hotherFriend, fun heq => ?_⟩,
    ⟨hentry, hotherEntry, fun heq => ?_⟩, by decide +kernel, ?_⟩
  · exact hids ((hvertices _ _ _ _ _ _ hperson hother).1 heq).1
  · exact hids (EdgeKey.unpadded_eq_iff.1 ((hedges _ _ _ _ hfriend hotherFriend).1 heq)).1
  · have hsame := (hentries byAge [.int 7] (.vertex "a") (.vertex "ab") entry otherEntry hentry
      hotherEntry (by simp)).1 heq
    exact hids (Entity.vertex.inj hsame)
  · refine hrows node _ 1 (.tag "a" 3) person hsteady.chainWriter_eq hwidth hperson ?_
    intro event hevent named hnames heq
    rw [List.mem_singleton.1 hevent] at hnames
    rw [Event.names_addPerson hnames] at heq
    exact hids (RowId.tag.inj heq).1.symm

/-- Zero characters at the end of an id are lost in all keys: the person, the friendship and the
entry of `a` have the keys of those of `a` with a zero character, and putting one person overwrites
the other. -/
theorem shared_up_to_padding :
    let byAge : Index := {
      id := 5, name := "by_age", owner := .tag 3, columns := [{ name := "age", ty := .int64 }] }
    let node := (Node.fresh .people (.table []) {}).after [.addPart ⟨1, 1⟩ default, .addPerson "a" 7]
    let person : Bytes := [1, 0, 0, 1, 97, 0, 0, 0, 128, 0, 0, 3]
    "a" ≠ "a\x00" ∧
      (vertex 4 1 "a" 3 = .ok person ∧ vertex 4 1 "a\x00" 3 = .ok person) ∧
      (∃ key, edge 4 1 ⟨"a", 7, 0, "b"⟩ = .ok key ∧ edge 4 1 ⟨"a\x00", 7, 0, "b"⟩ = .ok key) ∧
      (∃ key, IndexLayout.encodeKey ⟨byAge, 4⟩ 1 [.int 7] (.vertex "a") = .ok key ∧
        IndexLayout.encodeKey ⟨byAge, 4⟩ 1 [.int 7] (.vertex "a\x00") = .ok key) ∧
      (node.store.stored? ⟨1, 1⟩ person).isSome = true ∧
        (node.after [.addPerson "a\x00" 8]).store.stored? ⟨1, 1⟩ person ≠
          node.store.stored? ⟨1, 1⟩ person := by
  refine ⟨by decide, ⟨by decide, by decide⟩, ?_, ?_, by decide +kernel, by decide +kernel⟩
  · exact ⟨[2, 0, 0, 1, 97, 0, 0, 0, 128, 0, 0, 7, 128, 0, 0, 0, 0, 0, 0, 0, 98, 0, 0, 0],
      by decide, by decide⟩
  · exact ⟨[3, 0, 0, 1, 128, 0, 0, 5, 128, 0, 0, 0, 0, 0, 0, 7, 97, 0, 0, 0], by decide, by decide⟩

end Key

end GraphStore
