import GraphStore.Proofs.Index.Touched
import GraphStore.Query.Lookup

/-!
# Runs of a node

A run begins with a node that holds nothing, under a catalog that stays as it is. Requests come one
after another, and in between partitions are added, made to fail and healed, and leaders get lost.
What holds of every run follows from what single steps keep.
-/

namespace GraphStore

/-- A step of a run: a request, or a change to the store around it. -/
inductive Event where
  | batch (m : BatchMutation)
  | update (req : UpdateVertex)
  /-- A lookup whose partitions complete in the given order. -/
  | lookup (req : Lookup) (order : List PartId)
  | addPart (addr : Address) (leader : Host)
  | failPart (addr : Address) (code : EngineCode)
  | healPart (addr : Address)
  | clearLeader (addr : Address)

/-- The answer to a step. -/
inductive Reply where
  | changed (response : Response)
  | updated (response : UpdateResponse)
  | found (response : LookupResponse)
  | done
  deriving DecidableEq, Repr, Inhabited

namespace Event

/-- Carries out a step. -/
def run (node : Node) : Event → Node × Reply
  | batch m => ((m.run node).1, .changed (m.run node).2)
  | update req => ((node.updateVertex req).1, .updated (node.updateVertex req).2)
  | lookup req order => ((node.lookupInOrder req order).1, .found (node.lookupInOrder req order).2)
  | addPart addr leader => ({ node with store := node.store.addPart addr leader }, .done)
  | failPart addr code => ({ node with store := node.store.failPart addr code }, .done)
  | healPart addr => ({ node with store := node.store.healPart addr }, .done)
  | clearLeader addr => ({ node with store := node.store.clearLeader addr }, .done)

/-- Whether a step sets no failure that is called a success. -/
def Honest : Event → Prop
  | failPart _ code => code ≠ .succeeded
  | _ => True

/-- Whether every double that a step gives is finite. -/
def Finite : Event → Prop
  | batch m => m.Finite
  | _ => True

/-- The rows of a partition that a step puts or deletes. -/
inductive Names : Event → Address → RowId → Prop where
  | batch {m : BatchMutation} {part : PartId} {row : RowId} (hnames : m.Names part row) :
      Names (.batch m) ⟨m.space, part⟩ row
  | update {req : UpdateVertex} :
      Names (.update req) ⟨req.space, req.part⟩ (.tag req.vertex req.tag)

end Event

namespace Node

/-- A node that holds nothing yet. -/
def fresh (catalog : Catalog) (placement : Placement) (config : Config) : Node where
  catalog
  placement
  config
  cache := VertexCache.ofCapacity? config.vertexCacheCapacity

/-- The node after steps one after another. -/
def after (node : Node) (events : List Event) : Node :=
  events.foldl (fun node event => (event.run node).1) node

/-- One more step. -/
theorem after_concat (node : Node) (events : List Event) (event : Event) :
    node.after (events ++ [event]) = (event.run (node.after events)).1 :=
  List.foldl_append

/-- What holds at the beginning and is kept by every step holds after a run. -/
theorem after_induction {P : Node → Prop} {events : List Event} {node : Node} (hstart : P node)
    (hstep : ∀ node, ∀ event ∈ events, P node → P (event.run node).1) : P (node.after events) := by
  induction events generalizing node with
  | nil => exact hstart
  | cons event events ih =>
    exact ih (hstep node event List.mem_cons_self hstart) fun node event hevent =>
      hstep node event (List.mem_cons_of_mem _ hevent)

/-- What no step of a run changes. -/
structure Steady (catalog : Catalog) (node : Node) : Prop where
  catalog_eq : node.catalog = catalog
  chainWriter_eq : node.chainWriter = .toSource
  down_eq : node.down = []

end Node

/-- A lookup changes nothing but the cache. -/
theorem Node.lookupInOrder_fst (node : Node) (req : Lookup) (order : List PartId) :
    ∃ cache, (node.lookupInOrder req order).1 = { node with cache } := by
  unfold lookupInOrder
  dsimp only
  split
  · rw [reportParts_eq]
    exact ⟨node.cache, rfl⟩
  · rw [reportParts_eq]
    exact ⟨_, rfl⟩

/-- A batch mutation leaves the setting as it is, but for the cache. -/
theorem BatchMutation.run_sameSetting (m : BatchMutation) {node : Node}
    (hwriter : ∀ req schedule, m = addEdgesChained req schedule → node.chainWriter = .toSource) :
    ∃ cache, SameSetting { node with cache } (m.run node).1 := by
  cases m with
  | addVertices req =>
    rw [run, Node.addVertices]
    split
    · exact ⟨_, runUnits_sameSetting _ req.space _⟩
    · exact ⟨_, runUnits_sameSetting node req.space _⟩
  | addEdges req => exact ⟨_, runUnits_sameSetting node req.space _⟩
  | addEdgesChained req schedule =>
    have hwriter := hwriter req schedule rfl
    refine ⟨node.cache, ?_⟩
    rw [run]
    cases hlayout : node.layout req.space true with
    | error code =>
      rw [node.addEdgesChained_of_error req schedule hlayout]
      exact .refl node
    | ok layout =>
      obtain ⟨order, -, hnode, -⟩ := node.addEdgesChained_of_ok req schedule hwriter hlayout
      obtain ⟨-, hsetting, -⟩ := Node.writeInOrder_spec req.space layout.vidLen
        (!layout.indexes.isEmpty) hwriter order
      rw [hnode]
      exact hsetting
  | deleteVertices req =>
    rw [run, Node.deleteVertices]
    split
    · exact ⟨_, runUnits_sameSetting _ req.space _⟩
    · exact ⟨_, runUnits_sameSetting node req.space _⟩
  | deleteEdges req => exact ⟨_, runUnits_sameSetting node req.space _⟩

namespace Node

variable {catalog : Catalog} {node other : Node}

/-- An update leaves the setting as it is, but for the cache. -/
theorem updateVertex_sameSetting (node : Node) (req : UpdateVertex) :
    ∃ cache, SameSetting { node with cache } (node.updateVertex req).1 := by
  by_cases hwrite : ∃ removes puts props inserted,
      req.prepare node = .ok (.write removes puts props inserted)
  · obtain ⟨removes, puts, props, inserted, hprepare⟩ := hwrite
    rw [updateVertex_of_write hprepare]
    exact ⟨_, perform_sameSetting ..⟩
  · rw [updateVertex_of_not_write fun removes puts props inserted h =>
      hwrite ⟨removes, puts, props, inserted, h⟩]
    exact ⟨node.cache, .refl node⟩

/-- A step changes neither the catalog nor the chain writer nor what is down. -/
theorem setting_run (hwriter : node.chainWriter = .toSource) (event : Event) :
    (event.run node).1.catalog = node.catalog ∧ (event.run node).1.chainWriter = .toSource ∧
      (event.run node).1.down = node.down := by
  cases event with
  | batch m =>
    obtain ⟨cache, hsame⟩ := m.run_sameSetting fun _ _ _ => hwriter
    exact ⟨hsame.catalog, hsame.chainWriter.trans hwriter, hsame.down⟩
  | update req =>
    obtain ⟨cache, hsame⟩ := node.updateVertex_sameSetting req
    exact ⟨hsame.catalog, hsame.chainWriter.trans hwriter, hsame.down⟩
  | lookup req order =>
    obtain ⟨cache, hnode⟩ := node.lookupInOrder_fst req order
    rw [Event.run, hnode]
    exact ⟨rfl, hwriter, rfl⟩
  | addPart addr leader => exact ⟨rfl, hwriter, rfl⟩
  | clearLeader addr => exact ⟨rfl, hwriter, rfl⟩
  | failPart addr code => exact ⟨rfl, hwriter, rfl⟩
  | healPart addr => exact ⟨rfl, hwriter, rfl⟩

/-- A step keeps the node steady. -/
theorem Steady.step (h : node.Steady catalog) (event : Event) :
    (event.run node).1.Steady catalog := by
  obtain ⟨hcatalog, hwriter, hdown⟩ := setting_run h.chainWriter_eq event
  exact ⟨hcatalog.trans h.catalog_eq, hwriter, hdown.trans h.down_eq⟩

/-- A step that sets no failure called a success leaves none. -/
theorem honestFailures_step (hwriter : node.chainWriter = .toSource)
    (hhonest : node.store.HonestFailures) {event : Event} (h : event.Honest) :
    (event.run node).1.store.HonestFailures := by
  intro addr
  cases event with
  | batch m =>
    obtain ⟨cache, hsame⟩ := m.run_sameSetting fun _ _ _ => hwriter
    rw [Event.run, hsame.failures]
    exact hhonest addr
  | update req =>
    obtain ⟨cache, hsame⟩ := node.updateVertex_sameSetting req
    rw [Event.run, hsame.failures]
    exact hhonest addr
  | lookup req order =>
    obtain ⟨cache, hnode⟩ := node.lookupInOrder_fst req order
    rw [Event.run, hnode]
    exact hhonest addr
  | addPart target leader => exact hhonest addr
  | clearLeader target => exact hhonest addr
  | failPart target code =>
    have hfailures : ((Event.failPart target code).run node).1.store.failures =
        node.store.failures.insert target code := rfl
    rw [hfailures, Std.ExtTreeMap.getElem?_insert]
    split
    · exact fun heq => h (Option.some.inj heq)
    · exact hhonest addr
  | healPart target =>
    have hfailures : ((Event.healPart target).run node).1.store.failures =
        node.store.failures.erase target := rfl
    rw [hfailures, Std.ExtTreeMap.getElem?_erase]
    split
    · nofun
    · exact hhonest addr

/-- After a run that sets no failure called a success there is none. -/
theorem honestFailures_after (catalog : Catalog) (placement : Placement) (config : Config)
    {events : List Event} (h : ∀ event ∈ events, event.Honest) :
    ((fresh catalog placement config).after events).store.HonestFailures := by
  have hstart : ((fresh catalog placement config).Steady catalog) ∧
      (fresh catalog placement config).store.HonestFailures :=
    ⟨⟨rfl, rfl, rfl⟩, fun addr => by simp [fresh]⟩
  have hall := after_induction (P := fun node => node.Steady catalog ∧ node.store.HonestFailures)
    hstart fun node event hevent hnode =>
      ⟨hnode.1.step event, honestFailures_step hnode.1.chainWriter_eq hnode.2 (h event hevent)⟩
  exact hall.2

end Node

/-- A partition that is added is empty, unless it was there. -/
theorem Store.parts_addPart {s : Store} {addr other : Address} {leader : Host} {p : Partition}
    (h : (s.addPart addr leader).parts[other]? = some p) :
    s.parts[other]? = none ∧ p = ∅ ∨ s.parts[other]? = some p := by
  have hparts : (s.addPart addr leader).parts =
      s.parts.insert addr ((s.parts[addr]?).getD ∅) := rfl
  rw [hparts, Std.ExtTreeMap.getElem?_insert] at h
  split at h
  · next heq =>
    obtain rfl := Std.LawfulEqCmp.compare_eq_iff_eq.1 heq
    cases hp : s.parts[addr]? with
    | none =>
      rw [hp] at h
      exact .inl ⟨rfl, (Option.some.inj h).symm⟩
    | some old =>
      rw [hp] at h
      exact .inr h
  · exact .inr h

namespace Event

/-- What a step does to a partition that is there: nothing, the whole of a batch, or the replacement
of the row that is updated. -/
inductive Effect (node : Node) : Event → Address → Partition → Partition → Prop where
  | same (event : Event) (addr : Address) (p : Partition) : Effect node event addr p p
  | whole {m : BatchMutation} {part : PartId} {change : Partition → Partition}
      (hwhole : BatchMutation.Whole node m part change) (p : Partition) :
      Effect node (.batch m) ⟨m.space, part⟩ p (change p)
  | replaced {req : UpdateVertex} {vidLen : Nat} {p : Partition} {removes : List Bytes} {r : FullRow}
      {props : Props} {inserted : Bool} (hvidLen : node.catalog.vidLen req.space = .ok vidLen)
      (hrow : r.row = .tag req.vertex req.tag)
      (hprepare : req.prepare node = .ok (.write removes r.entries props inserted))
      (hreplaces : Site.Replaces ⟨node.catalog, req.space, vidLen, req.part⟩ p removes r) :
      Effect node (.update req) ⟨req.space, req.part⟩ p ((p.remove removes).put r.entries)

variable {node : Node} {event : Event} {addr : Address} {p after : Partition}

/-- A step adds an empty partition, or has one of its effects. -/
theorem effect (hwriter : node.chainWriter = .toSource)
    (hafter : (event.run node).1.store.parts[addr]? = some after) :
    node.store.parts[addr]? = none ∧ after = ∅ ∨
      ∃ p, node.store.parts[addr]? = some p ∧ event.Effect node addr p after := by
  have hsame (h : (event.run node).1.store.parts[addr]? = node.store.parts[addr]?) :
      ∃ p, node.store.parts[addr]? = some p ∧ event.Effect node addr p after :=
    ⟨after, h.symm.trans hafter, .same event addr after⟩
  cases event with
  | batch m =>
    rcases m.run_change hwriter addr with h | ⟨hspace, change, hwhole, hcontent⟩
    · exact .inr (hsame h)
    · obtain ⟨space, part⟩ := addr
      obtain rfl : space = m.space := hspace
      obtain ⟨p, hp, rfl⟩ := Option.map_eq_some_iff.1 (hcontent.symm.trans hafter)
      exact .inr ⟨p, hp, .whole hwhole p⟩
  | update req =>
    obtain ⟨p, hp, hcases⟩ := Node.updateVertex_content req hafter
    rcases hcases with
      rfl | ⟨rfl, removes, props, inserted, r, hrow, hprepare, ⟨vidLen, hvidLen, hreplaces⟩, rfl⟩
    · exact .inr ⟨after, hp, .same _ addr after⟩
    · exact .inr ⟨p, hp, .replaced hvidLen hrow hprepare hreplaces⟩
  | lookup req order =>
    obtain ⟨cache, hnode⟩ := node.lookupInOrder_fst req order
    refine .inr (hsame ?_)
    rw [run, hnode]
  | addPart target leader =>
    exact (Store.parts_addPart hafter).imp_right fun hp => ⟨after, hp, .same _ addr after⟩
  | failPart target code => exact .inr (hsame rfl)
  | healPart target => exact .inr (hsame rfl)
  | clearLeader target => exact .inr (hsame rfl)

/-- In a space without a width for vertex ids no step does anything. -/
theorem Effect.vidLen (h : event.Effect node addr p after) :
    after = p ∨ ∃ vidLen, node.catalog.vidLen addr.space = .ok vidLen := by
  cases h with
  | same => exact .inl rfl
  | whole hwhole => exact .inr hwhole.vidLen
  | replaced hvidLen _ _ _ => exact .inr ⟨_, hvidLen⟩

/-- Under a sound catalog a step changes rows together with their entries. -/
theorem Effect.change (h : event.Effect node addr p after) (hsound : node.catalog.Sound)
    (hfinite : event.Finite) (hp : node.store.parts[addr]? = some p) {vidLen : Nat}
    (hvidLen : node.catalog.vidLen addr.space = .ok vidLen) :
    Site.Change ⟨node.catalog, addr.space, vidLen, addr.part⟩ p after := by
  cases h with
  | same => exact .same
  | whole hwhole => exact hwhole.change hsound hfinite hp hvidLen
  | replaced hwidth _ _ hreplaces =>
    obtain rfl := Except.ok.inj (hwidth.symm.trans hvidLen)
    exact .replace hreplaces

/-- No step removes a partition. -/
theorem isSome_parts (hwriter : node.chainWriter = .toSource)
    (hp : (node.store.parts[addr]?).isSome = true) :
    ((event.run node).1.store.parts[addr]?).isSome = true := by
  cases event with
  | batch m =>
    obtain ⟨cache, hsame⟩ := m.run_sameSetting fun _ _ _ => hwriter
    exact (hsame.parts addr).trans hp
  | update req =>
    obtain ⟨cache, hsame⟩ := node.updateVertex_sameSetting req
    exact (hsame.parts addr).trans hp
  | lookup req order =>
    obtain ⟨cache, hnode⟩ := node.lookupInOrder_fst req order
    rw [run, hnode]
    exact hp
  | addPart target leader =>
    have hparts : ((addPart target leader).run node).1.store.parts =
        node.store.parts.insert target ((node.store.parts[target]?).getD ∅) := rfl
    rw [hparts, Std.ExtTreeMap.getElem?_insert]
    split
    · rfl
    · exact hp
  | failPart target code => exact hp
  | healPart target => exact hp
  | clearLeader target => exact hp

/-- A step touches no rows but those it names. -/
theorem Effect.touches (h : event.Effect node addr p after)
    (hp : node.store.parts[addr]? = some p) {vidLen : Nat}
    (hvidLen : node.catalog.vidLen addr.space = .ok vidLen) :
    Site.Touches ⟨node.catalog, addr.space, vidLen, addr.part⟩ (event.Names addr) p after := by
  cases h with
  | same => exact .refl _ _ p
  | whole hwhole => exact (hwhole.touches hp hvidLen).mono fun row => .batch
  | @replaced req width p removes r props inserted hwidth hrow hprepare hreplaces =>
    obtain rfl := Except.ok.inj (hwidth.symm.trans hvidLen)
    have hnames : Event.Names (.update req) ⟨req.space, req.part⟩ r.row := by
      rw [hrow]
      exact .update
    have hremoves := Site.touches_remove (p := p) fun entry hentry =>
      ⟨r.row, hnames, .inr (hreplaces.own entry hentry)⟩
    refine hremoves.trans (Site.touches_put fun key hkey => ?_)
    obtain ⟨⟨other, raw⟩, hmem, rfl⟩ := List.mem_map.1 hkey
    rcases List.mem_cons.1 hmem with heq | hmem
    · cases heq
      exact ⟨r.row, hnames, .inl hreplaces.full.key⟩
    · obtain ⟨found, hfound, heq⟩ := List.mem_map.1 hmem
      cases heq
      exact ⟨r.row, hnames, .inr (hreplaces.full.tight other hfound).isEntryOf⟩

end Event

namespace Catalog

/-- People with an age, and an index over it. -/
def people : Catalog :=
  ((addSpace {} 1 4).addTag 1 3 "person" { columns := [{ name := "age", ty := .int64 }] }).addIndex
    1 { id := 5, name := "by_age", owner := .tag 3, columns := [{ name := "age", ty := .int64 }] }

/-- What is registered for a space is there for the first space alone. -/
theorem entry_people (space : SpaceId) : people.entry space =
    if space = 1 then {
      vidLen? := some 4
      tags := (∅ : Std.ExtTreeMap TagId (String × Schema)).insert 3
        ("person", { columns := [{ name := "age", ty := .int64 }] })
      indexes := (∅ : Std.ExtTreeMap IndexId Index).insert 5
        { id := 5, name := "by_age", owner := .tag 3, columns := [{ name := "age", ty := .int64 }] } }
    else {} := by
  have hempty (other : SpaceId) : (({} : Catalog).entry other) = {} := by simp [entry]
  simp only [people, addIndex, addTag, addSpace, entry_modify, hempty]
  split <;> rfl

/-- Ids of people take four bytes. -/
theorem vidLen_people : people.vidLen 1 = .ok 4 := by
  rw [vidLen, entry_people]
  rfl

/-- People have one index. -/
theorem index_people {space : SpaceId} {id : IndexId} {index : Index}
    (h : (people.entry space).indexes[id]? = some index) : index =
      { id := 5, name := "by_age", owner := .tag 3, columns := [{ name := "age", ty := .int64 }] } := by
  rw [entry_people] at h
  split at h
  · rw [Std.ExtTreeMap.getElem?_insert] at h
    split at h
    · exact (Option.some.inj h).symm
    · simp at h
  · simp at h

/-- The catalog of people is sound. -/
theorem people_sound : people.Sound := by
  have hschema (space : SpaceId) (ref : SchemaRef) (schema : Schema)
      (h : people.schema? space ref = some schema) :
      schema = { columns := [{ name := "age", ty := .int64 }] } := by
    unfold schema? named? at h
    rw [entry_people] at h
    cases ref with
    | tag id =>
      dsimp only at h
      split at h
      · rw [Std.ExtTreeMap.getElem?_insert] at h
        split at h
        · exact (Option.some.inj h).symm
        · simp at h
      · simp at h
    | edge id =>
      dsimp only at h
      split at h <;> simp at h
  refine ⟨.addIndex (.addTag (.addSpace .empty 1 4) 1 3 _ _) 1 _, ?_, ?_, ?_⟩
  · intro space ref schema h
    rw [hschema space ref schema h]
    decide
  · intro space id index schema hid h indexColumn hindexColumn column hcolumn _
    rw [index_people hid, List.mem_singleton] at hindexColumn
    rw [hschema space _ schema h, List.mem_singleton] at hcolumn
    rw [hindexColumn, hcolumn]
  · intro space ref schema h column hcolumn value hvalue
    rw [hschema space ref schema h, List.mem_singleton] at hcolumn
    rw [hcolumn] at hvalue
    cases hvalue

end Catalog

/-- Inserts one person of some age into the first partition. -/
def Event.addPerson (vid : VertexId) (age : Int64) : Event :=
  .batch (.addVertices {
    space := 1
    parts := .insert ∅ 1 [{ id := vid, tags := [{ tag := 3, props := [.int age] }] }] })

/-- The insertion of a person gives no double. -/
theorem Event.addPerson_finite (vid : VertexId) (age : Int64) : (addPerson vid age).Finite := by
  intro part vertices hvertices item hitem value hvalue
  rw [Std.ExtTreeMap.getElem?_insert] at hvertices
  split at hvertices
  · cases hvertices
    rw [List.mem_singleton.1 hitem] at hvalue
    rw [List.mem_singleton.1 hvalue]
    rfl
  · simp at hvertices

/-- The insertion of a person names one row. -/
theorem Event.names_addPerson {vid : VertexId} {age : Int64} {addr : Address} {row : RowId}
    (h : (addPerson vid age).Names addr row) : row = .tag vid 3 := by
  cases h with
  | batch hnames =>
    cases hnames with
    | tagRow hitems hitem =>
      rw [Std.ExtTreeMap.getElem?_insert] at hitems
      split at hitems
      · cases hitems
        cases List.mem_singleton.1 hitem
        rfl
      · simp at hitems

end GraphStore
