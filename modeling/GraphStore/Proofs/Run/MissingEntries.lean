import GraphStore.Proofs.Run.Event

/-!
# No index entry is ever missing

Along every run each stored row can be read, and the partition that stores it also stores its key in
every index over its tag or edge type. Every step puts rows together with their entries, and a step
that removes an index key removes or replaces the only row it can belong to.
-/

namespace GraphStore

/-- A partition of rows that can be read and have all of their index entries, and of index entries.
In a space without a width for vertex ids there is nothing. -/
structure Catalog.Intact (catalog : Catalog) (addr : Address) (p : Partition) : Prop where
  nothing : ∀ fault, catalog.vidLen addr.space = .error fault → p = ∅
  complete : ∀ vidLen, catalog.vidLen addr.space = .ok vidLen →
    Site.Complete ⟨catalog, addr.space, vidLen, addr.part⟩ p
  known : ∀ vidLen, catalog.vidLen addr.space = .ok vidLen →
    Site.OnlyOf ⟨catalog, addr.space, vidLen, addr.part⟩ (fun _ => True) p

namespace Catalog

variable {catalog : Catalog} {addr : Address} {p after : Partition}

/-- Nothing is missing where nothing is. -/
theorem intact_empty (catalog : Catalog) (addr : Address) : catalog.Intact addr ∅ where
  nothing _ _ := rfl
  complete _ _ _ _ _ _ hraw := by simp at hraw
  known _ _ _ hkey := by simp at hkey

/-- Changes keep a partition intact. -/
theorem Intact.change (hregistered : catalog.Registered) (h : catalog.Intact addr p)
    {vidLen : Nat} (hvidLen : catalog.vidLen addr.space = .ok vidLen)
    (hchange : Site.Change ⟨catalog, addr.space, vidLen, addr.part⟩ p after)
    {rows : RowId → Prop}
    (htouches : Site.Touches ⟨catalog, addr.space, vidLen, addr.part⟩ rows p after) :
    catalog.Intact addr after where
  nothing fault hfault := by
    rw [hvidLen] at hfault
    cases hfault
  complete width hwidth := by
    obtain rfl := Except.ok.inj (hvidLen.symm.trans hwidth)
    exact (h.complete vidLen hvidLen).change hregistered hchange
  known width hwidth := by
    obtain rfl := Except.ok.inj (hvidLen.symm.trans hwidth)
    exact (h.known vidLen hvidLen).touches htouches fun _ _ => trivial

end Catalog

namespace Node

variable {catalog : Catalog}

/-- Whether every partition of a steady node is intact. -/
def Indexed (catalog : Catalog) (node : Node) : Prop :=
  node.Steady catalog ∧ ∀ (addr : Address) (p : Partition), node.store.parts[addr]? = some p →
    catalog.Intact addr p

/-- A node that holds nothing is indexed. -/
theorem indexed_fresh (catalog : Catalog) (placement : Placement) (config : Config) :
    (fresh catalog placement config).Indexed catalog := by
  refine ⟨⟨rfl, rfl, rfl⟩, fun addr p hp => ?_⟩
  simp [fresh] at hp

/-- A step keeps every partition intact. -/
theorem Indexed.step (hsound : catalog.Sound) {node : Node} (h : node.Indexed catalog)
    {event : Event} (hfinite : event.Finite) : (event.run node).1.Indexed catalog := by
  obtain ⟨hsteady, hintact⟩ := h
  refine ⟨hsteady.step event, fun addr after hafter => ?_⟩
  obtain rfl := hsteady.catalog_eq
  rcases event.effect hsteady.chainWriter_eq hafter with ⟨-, rfl⟩ | ⟨p, hp, heffect⟩
  · exact Catalog.intact_empty node.catalog addr
  · rcases heffect.vidLen with rfl | ⟨vidLen, hvidLen⟩
    · exact hintact addr after hp
    · exact (hintact addr p hp).change hsound.registered hvidLen
        (heffect.change hsound hfinite hp hvidLen) (heffect.touches hp hvidLen)

/-- Every run keeps every partition intact. -/
theorem indexed_after (hsound : catalog.Sound) (placement : Placement) (config : Config)
    {events : List Event} (hfinite : ∀ event ∈ events, event.Finite) :
    ((fresh catalog placement config).after events).Indexed catalog :=
  after_induction (indexed_fresh catalog placement config) fun _ event hevent h =>
    h.step hsound (hfinite event hevent)

/-- After any run, what is stored under a key that is not that of an index entry is a row that can
be read, and its key in every index over its tag or edge type is stored along with it. -/
theorem entries_of_stored_row (hsound : catalog.Sound) (placement : Placement) (config : Config)
    {events : List Event} (hfinite : ∀ event ∈ events, event.Finite) {addr : Address} {p : Partition}
    (hp : ((fresh catalog placement config).after events).store.parts[addr]? = some p)
    {key raw : Bytes} (hraw : p[key]? = some raw) (hkind : key.head? ≠ some Key.indexKind) :
    ∃ vidLen, catalog.vidLen addr.space = .ok vidLen ∧
      (∃ row, Site.rowKey ⟨catalog, addr.space, vidLen, addr.part⟩ row = .ok key) ∧
      ∀ row, Site.rowKey ⟨catalog, addr.space, vidLen, addr.part⟩ row = .ok key →
        Site.Covered ⟨catalog, addr.space, vidLen, addr.part⟩ row raw (· ∈ p) := by
  have hintact := (indexed_after hsound placement config hfinite).2 addr p hp
  cases hvidLen : catalog.vidLen addr.space with
  | error fault =>
    rw [hintact.nothing fault hvidLen] at hraw
    simp at hraw
  | ok vidLen =>
    refine ⟨vidLen, rfl, ?_, fun row hkey => hintact.complete vidLen hvidLen row key raw hkey hraw⟩
    obtain ⟨row, -, hrow | hentry⟩ :=
      hintact.known vidLen hvidLen key (Partition.mem_iff_getElem?.2 ⟨raw, hraw⟩)
    · exact ⟨row, hrow⟩
    · exact absurd hentry.head? hkind

/-- A person that was inserted and then given another age is stored with the entry of that age. -/
theorem entries_of_stored_person :
    let events := [.addPart ⟨1, 1⟩ default, .addPerson "a" 7, .addPerson "a" 8]
    let key : Bytes := [1, 0, 0, 1, 97, 0, 0, 0, 128, 0, 0, 3]
    ∃ p raw, ((fresh .people (.table []) {}).after events).store.parts[(⟨1, 1⟩ : Address)]? = some p ∧
      p[key]? = some raw ∧ ∀ row, Site.rowKey ⟨.people, 1, 4, 1⟩ row = .ok key →
        Site.Covered ⟨.people, 1, 4, 1⟩ row raw (· ∈ p) := by
  intro events key
  have hstored : ((((fresh .people (.table []) {}).after events).store.parts[(⟨1, 1⟩ : Address)]?).bind
      (·[key]?)).isSome = true := by decide +kernel
  obtain ⟨raw, hraw⟩ := Option.isSome_iff_exists.1 hstored
  obtain ⟨p, hp, hraw⟩ := Option.bind_eq_some_iff.1 hraw
  have hfinite : ∀ event ∈ events, event.Finite := by
    simp only [events, List.forall_mem_cons]
    exact ⟨trivial, Event.addPerson_finite "a" 7, Event.addPerson_finite "a" 8, nofun⟩
  obtain ⟨vidLen, hvidLen, -, hcovered⟩ := entries_of_stored_row Catalog.people_sound (.table []) {}
    hfinite hp hraw (by decide)
  have hwidth : Catalog.people.vidLen 1 = .ok 4 := by
    rw [Catalog.vidLen, Catalog.entry_people]
    rfl
  obtain rfl : vidLen = 4 := Except.ok.inj (hvidLen.symm.trans hwidth)
  exact ⟨p, raw, hp, hraw, hcovered⟩

end Node

end GraphStore
