import GraphStore.Proofs.Mutation.Chains
import GraphStore.Proofs.Mutation.Prepared

/-!
# Batch mutations are all or nothing

A batch mutation takes effect for each partition as a whole or not at all, and the response tells
which: a listed partition keeps its content, and a requested one that is not listed takes all the
writes that were prepared for it. Other partitions are neither listed nor changed. What the writes
come to, row by row, is told where the rows are.
-/

namespace GraphStore

/-- A mutation that has a batch for each of some partitions. The schedule says in which order chain
writes complete. -/
inductive BatchMutation where
  | addVertices (req : AddVertices)
  | addEdges (req : AddEdges)
  | addEdgesChained (req : AddEdges) (schedule : List Nat)
  | deleteVertices (req : DeleteVertices)
  | deleteEdges (req : DeleteEdges)

namespace BatchMutation

/-- Carries out a mutation. -/
def run (node : Node) : BatchMutation → Node × Response
  | addVertices req => node.addVertices req
  | addEdges req => node.addEdges req
  | addEdgesChained req schedule => node.addEdgesChained req schedule
  | deleteVertices req => node.deleteVertices req
  | deleteEdges req => node.deleteEdges req

/-- The space of a mutation. -/
def space : BatchMutation → SpaceId
  | addVertices req => req.space
  | addEdges req => req.space
  | addEdgesChained req _ => req.space
  | deleteVertices req => req.space
  | deleteEdges req => req.space

/-- Whether a mutation has a batch for a partition. -/
def Requests : BatchMutation → PartId → Prop
  | addVertices req, part => part ∈ req.parts
  | addEdges req, part => part ∈ req.parts
  | addEdgesChained req _, part => part ∈ req.parts
  | deleteVertices req, part => part ∈ req.parts
  | deleteEdges req, part => part ∈ req.parts

/-- Whether a mutation requests a partition without anything to do there. -/
def Idle : BatchMutation → PartId → Prop
  | addVertices req, part => req.parts[part]? = some []
  | addEdges req, part => req.parts[part]? = some []
  | addEdgesChained req _, part => req.parts[part]? = some []
  | deleteVertices req, part => req.parts[part]? = some []
  | deleteEdges req, part => req.parts[part]? = some []

/-- The partitions that the response lists. -/
def listed (node : Node) (m : BatchMutation) : List PartId :=
  (m.run node).2.failed.map (·.part)

/-- What an insert puts into a partition: the entries of all its rows, those of chains in whichever
order these complete. -/
inductive Puts (node : Node) : BatchMutation → PartId → List Entry → Prop where
  | addVertices {req : AddVertices} {layout : SpaceLayout} {part : PartId}
      {vertices : List NewVertex} {batches : List (List Entry)}
      (hlayout : node.layout req.space false = .ok layout)
      (hitems : req.parts[part]? = some vertices)
      (hbatches : List.Forall₂ (fun item batch => req.entries node layout part item = .ok batch)
        (TagItem.ofVertices vertices) batches) :
      Puts node (.addVertices req) part batches.flatten
  | addEdges {req : AddEdges} {layout : SpaceLayout} {part : PartId} {edges : List NewEdge}
      {batches : List (List Entry)}
      (hlayout : node.layout req.space true = .ok layout)
      (hitems : req.parts[part]? = some edges)
      (hbatches : List.Forall₂ (fun edge batch => req.entries node layout part edge = .ok batch)
        edges batches) :
      Puts node (.addEdges req) part batches.flatten
  | addEdgesChained {req : AddEdges} {schedule : List Nat} {layout : SpaceLayout} {part : PartId}
      {edges : List NewEdge} {ready : List ReadyEdge} {order : List ChainBatch}
      (hlayout : node.layout req.space true = .ok layout)
      (hitems : req.parts[part]? = some edges)
      (hready : List.Forall₂ (fun edge ready => req.readyEdge node layout part edge = .ok ready)
        edges ready)
      (horder : order.Perm (AddEdges.chainsOf part (Staged.ofEdges ready))) :
      Puts node (.addEdgesChained req schedule) part (order.flatMap (·.batch))

/-- The changes that apply the whole of a partition's batch: what an insert puts is put, and a
deletion removes the key ranges and the index keys of all its rows. -/
inductive Whole (node : Node) : BatchMutation → PartId → (Partition → Partition) → Prop where
  | put {m : BatchMutation} {part : PartId} {batch : List Entry} (hputs : Puts node m part batch) :
      Whole node m part fun p => p.put batch
  | deleteVertices {req : DeleteVertices} {layout : SpaceLayout} {part : PartId}
      {vids : List VertexId} {removals : List (Bytes × List Bytes)}
      (hlayout : node.layout req.space false = .ok layout)
      (hitems : req.parts[part]? = some vids)
      (hremovals : List.Forall₂ (fun vid removal => req.removal node layout part vid = .ok removal)
        vids removals) :
      Whole node (.deleteVertices req) part fun p =>
        (removals.foldl (fun p (stem, _) => p.removeRange stem (Key.upperBound stem)) p).remove
          (removals.flatMap (·.2))
  | deleteEdges {req : DeleteEdges} {layout : SpaceLayout} {part : PartId} {edges : List EdgeKey}
      {removals : List (List Bytes)}
      (hlayout : node.layout req.space true = .ok layout)
      (hitems : req.parts[part]? = some edges)
      (hremovals : List.Forall₂ (fun edge keys => req.removal node layout part edge = .ok keys)
        edges removals) :
      Whole node (.deleteEdges req) part fun p => p.remove removals.flatten

end BatchMutation

/-- A request to a space is all or nothing for each partition: a listed one keeps its content, and
what is done to any other is told by its content before and after. -/
structure AllOrNothing (before after : Store) (space : SpaceId) (listed : List PartId)
    (Requests : PartId → Prop) (Done : PartId → Option Partition → Option Partition → Prop) :
    Prop where
  nodup : listed.Nodup
  requested : ∀ part ∈ listed, Requests part
  nothing : ∀ part ∈ listed,
    after.parts[(⟨space, part⟩ : Address)]? = before.parts[(⟨space, part⟩ : Address)]?
  all : ∀ part, Requests part → part ∉ listed →
    Done part before.parts[(⟨space, part⟩ : Address)]? after.parts[(⟨space, part⟩ : Address)]?
  others : ∀ addr : Address, ¬ (addr.space = space ∧ Requests addr.part) →
    after.parts[addr]? = before.parts[addr]?

/-- One of some changes is made to a partition that is there, unless there is nothing to do. -/
def Applied (Whole : PartId → (Partition → Partition) → Prop) (Idle : PartId → Prop) (part : PartId)
    (before after : Option Partition) : Prop :=
  ∃ change, Whole part change ∧ after = before.map change ∧ (before.isSome ∨ Idle part)

/-- Whether no failure set for a partition is called a success. -/
def Store.HonestFailures (s : Store) : Prop :=
  ∀ addr : Address, s.failures[addr]? ≠ some .succeeded

namespace Node

variable {node : Node}

/-- With honest failures a write succeeds when nothing keeps it from a partition that is there. -/
theorem writeCode_eq_succeeded (hhonest : node.store.HonestFailures) {space : SpaceId}
    {part : PartId} : node.writeCode space part = .succeeded ↔
      node.Writable ⟨space, part⟩ ∧ (node.store.parts[(⟨space, part⟩ : Address)]?).isSome := by
  unfold writeCode Writable
  split
  · next hdown => simp [hdown]
  · next hup =>
    cases hfailure : node.store.failures[(⟨space, part⟩ : Address)]? with
    | some code =>
      have hcode : code ≠ .succeeded := fun h => hhonest _ (by rw [hfailure, h])
      simp [hcode]
    | none => cases node.store.parts[(⟨space, part⟩ : Address)]? <;> simp [hup]

/-- Writes that are refused or answered with success leave a partition as it is or take effect. -/
theorem content_of_writeCode (hhonest : node.store.HonestFailures) {space : SpaceId}
    {part : PartId} {content : Option Partition} {change : Partition → Partition}
    (hcontent : content = if node.Writable ⟨space, part⟩ then
      node.store.parts[(⟨space, part⟩ : Address)]?.map change
      else node.store.parts[(⟨space, part⟩ : Address)]?) :
    (node.writeCode space part ≠ .succeeded →
        content = node.store.parts[(⟨space, part⟩ : Address)]?) ∧
      (node.writeCode space part = .succeeded →
        content = node.store.parts[(⟨space, part⟩ : Address)]?.map change ∧
          (node.store.parts[(⟨space, part⟩ : Address)]?).isSome) := by
  refine ⟨fun hcode => hcontent.trans (content_of_refused hcode change), fun hcode => ?_⟩
  obtain ⟨hwritable, hthere⟩ := (writeCode_eq_succeeded hhonest).1 hcode
  exact ⟨hcontent.trans (if_pos hwritable), hthere⟩

end Node

section Parts

variable {α : Type} {parts : PartMap α} {node : Node} {before after : Store} {space : SpaceId}
  {listed : List PartId} {Requests Idle : PartId → Prop}
  {Whole : PartId → (Partition → Partition) → Prop}
  {Done Done' : PartId → Option Partition → Option Partition → Prop}

/-- What becomes of one requested partition: nothing, and it is listed, or all that is to be done. -/
def NothingOrAll (before after : Store) (space : SpaceId) (listed : List PartId)
    (Done : PartId → Option Partition → Option Partition → Prop) (part : PartId) : Prop :=
  part ∈ listed ∧
      after.parts[(⟨space, part⟩ : Address)]? = before.parts[(⟨space, part⟩ : Address)]? ∨
    part ∉ listed ∧
      Done part before.parts[(⟨space, part⟩ : Address)]? after.parts[(⟨space, part⟩ : Address)]?

/-- What is done to the partitions that are not listed may be told in other words. -/
theorem AllOrNothing.imp (h : AllOrNothing before after space listed Requests Done)
    (hdone : ∀ part, Done part before.parts[(⟨space, part⟩ : Address)]?
        after.parts[(⟨space, part⟩ : Address)]? →
      Done' part before.parts[(⟨space, part⟩ : Address)]?
        after.parts[(⟨space, part⟩ : Address)]?) :
    AllOrNothing before after space listed Requests Done' where
  nodup := h.nodup
  requested := h.requested
  nothing := h.nothing
  all part hrequested hunlisted := hdone part (h.all part hrequested hunlisted)
  others := h.others

/-- A partition whose writes are refused together takes nothing or all of them. -/
theorem nothingOrAll_of_writable (hhonest : node.store.HonestFailures) {part : PartId}
    {change : Partition → Partition} (hwhole : Whole part change) {Written : Prop}
    (hcontent : after.parts[(⟨space, part⟩ : Address)]? = if node.Writable ⟨space, part⟩ then
      node.store.parts[(⟨space, part⟩ : Address)]?.map change
      else node.store.parts[(⟨space, part⟩ : Address)]?)
    (hlisted : part ∈ listed ↔ Written ∧ node.writeCode space part ≠ .succeeded)
    (hidle : ¬ Written → Idle part ∧ change = id) :
    NothingOrAll node.store after space listed (Applied Whole Idle) part := by
  obtain ⟨hrefused, happlied⟩ := Node.content_of_writeCode hhonest hcontent
  by_cases hcode : node.writeCode space part = .succeeded
  · obtain ⟨hall, hthere⟩ := happlied hcode
    exact .inr ⟨fun h => (hlisted.1 h).2 hcode, change, hwhole, hall, .inl hthere⟩
  · by_cases hwritten : Written
    · exact .inl ⟨hlisted.2 ⟨hwritten, hcode⟩, hrefused hcode⟩
    · obtain ⟨hnothing, rfl⟩ := hidle hwritten
      refine .inr ⟨fun h => hwritten (hlisted.1 h).1, id, hwhole, ?_, .inr hnothing⟩
      rw [hrefused hcode, Option.map_id]
      rfl

/-- A request is all or nothing when it is so for each partition requested, and leaves the others
alone. -/
theorem AllOrNothing.of_parts (hnodup : listed.Nodup)
    (hspace : ∀ addr : Address, addr.space ≠ space → after.parts[addr]? = node.store.parts[addr]?)
    (habsent : ∀ part, parts[part]? = none → after.parts[(⟨space, part⟩ : Address)]? =
      node.store.parts[(⟨space, part⟩ : Address)]? ∧ part ∉ listed)
    (hpart : ∀ part items, parts[part]? = some items →
      NothingOrAll node.store after space listed Done part) :
    AllOrNothing node.store after space listed (· ∈ parts) Done where
  nodup := hnodup
  requested part hlisted := by
    by_contra hnot
    exact (habsent part (Std.ExtTreeMap.getElem?_eq_none hnot)).2 hlisted
  nothing part hlisted := by
    cases hitems : parts[part]? with
    | none => exact (habsent part hitems).1
    | some items =>
      rcases hpart part items hitems with ⟨-, hsame⟩ | ⟨hunlisted, -⟩
      · exact hsame
      · exact absurd hlisted hunlisted
  all part hrequested hunlisted := by
    obtain ⟨items, hitems⟩ := PartMap.mem_iff_getElem?.1 hrequested
    rcases hpart part items hitems with ⟨hlisted, -⟩ | ⟨-, hall⟩
    · exact absurd hlisted hunlisted
    · exact hall
  others addr hother := by
    obtain ⟨other, part⟩ := addr
    by_cases heq : other = space
    · subst heq
      exact (habsent part (Std.ExtTreeMap.getElem?_eq_none fun hmem => hother ⟨rfl, hmem⟩)).1
    · exact hspace ⟨other, part⟩ heq

variable (node space) in
/-- Work made of writes prepared for each partition is all or nothing. -/
theorem runUnits_allOrNothing (hhonest : node.store.HonestFailures)
    {layout : Except ErrorCode SpaceLayout}
    {prepare : SpaceLayout → PartId → α → Except ErrorCode (List WorkUnit)}
    (hprepare : PreparesWrites prepare) (hlayout : Truthful layout)
    (htruthful : ∀ layout part items, Truthful (prepare layout part items))
    (hidle : ∀ layout part items, parts[part]? = some items → prepare layout part items = .ok [] →
      Idle part)
    (hwhole : ∀ layout' part items writes, layout = .ok layout' → parts[part]? = some items →
      prepare layout' part items = .ok (writes.map (.write part)) →
        Whole part (Write.applyAll writes)) :
    AllOrNothing node.store (node.runUnits space (unitsOf layout parts prepare)).1.store space
      ((node.runUnits space (unitsOf layout parts prepare)).2.failed.map (·.part))
      (· ∈ parts) (Applied Whole Idle) := by
  refine .of_parts ?_ (fun addr h => runUnits_parts_of_ne node space _ h)
    (fun part habsent => runUnits_absent node space hprepare habsent) fun part items hitems => ?_
  · rw [Node.runUnits_eq]
    exact Tracker.nodup_collectFailures _
  cases hplan : layout.bind fun layout => prepare layout part items with
  | error code =>
    obtain ⟨hsame, hlisted⟩ := runUnits_refused node space hprepare hitems hplan
    have htrue : Truthful (layout.bind fun layout => prepare layout part items) :=
      hlayout.bind fun layout => htruthful layout part items
    exact .inl ⟨hlisted.2 fun h => htrue.ne_succeeded (by rw [hplan, h]), hsame⟩
  | ok units =>
    obtain ⟨writes, rfl⟩ := hprepare.bind hplan
    obtain ⟨hcontent, hlisted⟩ := runUnits_prepared node space hprepare hitems hplan
    obtain ⟨layout', hlayout', hprepared⟩ := bind_eq_ok.1 hplan
    refine nothingOrAll_of_writable hhonest
      (hwhole layout' part items writes hlayout' hitems hprepared)
      hcontent hlisted fun hempty => ?_
    obtain rfl : writes = [] := not_not.1 hempty
    exact ⟨hidle layout' part items hitems hprepared, rfl⟩

variable (node space) in
/-- Work made of writes prepared for each partition leaves it as it is or applies all of them. -/
theorem runUnits_change {layout : Except ErrorCode SpaceLayout}
    {prepare : SpaceLayout → PartId → α → Except ErrorCode (List WorkUnit)}
    (hprepare : PreparesWrites prepare)
    (hwhole : ∀ layout' part items writes, layout = .ok layout' → parts[part]? = some items →
      prepare layout' part items = .ok (writes.map (.write part)) →
        Whole part (Write.applyAll writes)) (addr : Address) :
    (node.runUnits space (unitsOf layout parts prepare)).1.store.parts[addr]? =
        node.store.parts[addr]? ∨
      addr.space = space ∧ ∃ change, Whole addr.part change ∧
        (node.runUnits space (unitsOf layout parts prepare)).1.store.parts[addr]? =
          node.store.parts[addr]?.map change := by
  obtain ⟨other, part⟩ := addr
  by_cases hspace : other = space
  case neg => exact .inl (runUnits_parts_of_ne node space _ hspace)
  subst hspace
  cases hitems : parts[part]? with
  | none => exact .inl (runUnits_absent node other hprepare hitems).1
  | some items =>
    cases hplan : layout.bind fun layout => prepare layout part items with
    | error code => exact .inl (runUnits_refused node other hprepare hitems hplan).1
    | ok units =>
      obtain ⟨writes, rfl⟩ := hprepare.bind hplan
      obtain ⟨hcontent, -⟩ := runUnits_prepared node other hprepare hitems hplan
      obtain ⟨layout', hlayout', hprepared⟩ := bind_eq_ok.1 hplan
      split at hcontent
      · exact .inr ⟨rfl, _, hwhole layout' part items writes hlayout' hitems hprepared, hcontent⟩
      · exact .inl hcontent

/-- Work for a partition that takes writes is carried out as a whole when it can be prepared, and is
refused without a trace otherwise. -/
theorem runUnits_of_writable {layout : SpaceLayout}
    {prepare : SpaceLayout → PartId → α → Except ErrorCode (List WorkUnit)}
    (hprepare : PreparesWrites prepare)
    (htruthful : ∀ layout part items, Truthful (prepare layout part items)) {part : PartId}
    {items : α} (hitems : parts[part]? = some items) (hwritable : node.Writable ⟨space, part⟩)
    {p : Partition} (hp : node.store.parts[(⟨space, part⟩ : Address)]? = some p) {Possible : Prop}
    (hpossible : (∃ units, prepare layout part items = .ok units) ↔ Possible)
    (hwhole : ∀ writes, prepare layout part items = .ok (writes.map (.write part)) →
      Whole part (Write.applyAll writes)) :
    let answer := node.runUnits space (unitsOf (.ok layout) parts prepare)
    Possible ∧ part ∉ answer.2.failed.map (·.part) ∧ (∃ change, Whole part change ∧
        answer.1.store.parts[(⟨space, part⟩ : Address)]? = some (change p)) ∨
      ¬ Possible ∧ part ∈ answer.2.failed.map (·.part) ∧
        answer.1.store.parts[(⟨space, part⟩ : Address)]? = some p := by
  intro answer
  have hbind (result : Except ErrorCode (List WorkUnit))
      (hplan : prepare layout part items = result) :
      (Except.ok layout : Except ErrorCode SpaceLayout).bind
        (fun layout => prepare layout part items) = result := hplan
  cases hplan : prepare layout part items with
  | error code =>
    obtain ⟨hsame, hlisted⟩ := runUnits_refused node space hprepare hitems (hbind _ hplan)
    refine .inr ⟨fun h => ?_, hlisted.2 fun h => ?_, hsame.trans hp⟩
    · obtain ⟨units, hunits⟩ := hpossible.2 h
      rw [hplan] at hunits
      cases hunits
    · exact (htruthful layout part items).ne_succeeded (by rw [hplan, h])
  | ok units =>
    obtain ⟨writes, rfl⟩ := hprepare layout part items units hplan
    obtain ⟨hcontent, hlisted⟩ := runUnits_prepared node space hprepare hitems (hbind _ hplan)
    have hcode := Node.writeCode_of_writable hwritable (by rw [hp]; rfl)
    refine .inl ⟨hpossible.1 ⟨_, hplan⟩, fun h => (hlisted.1 h).2 hcode, _, hwhole writes hplan, ?_⟩
    rw [hcontent, if_pos hwritable, hp, Option.map_some]

end Parts

namespace BatchMutation

variable {node : Node}

/-- Writes are known by the units that queue them. -/
theorem eq_of_map_write {part : PartId} {writes others : List Write}
    (h : writes.map (WorkUnit.write part) = others.map (.write part)) : writes = others :=
  List.map_injective_iff.2 (fun _ _ heq => (WorkUnit.write.inj heq).2) h

section Prepared

variable (layout : SpaceLayout) (part : PartId) (writes : List Write)

/-- What is prepared for an insertion of vertices is the whole of it. -/
theorem addVertices_whole (req : AddVertices) (vertices : List NewVertex)
    (hlayout : node.layout req.space false = .ok layout) (hitems : req.parts[part]? = some vertices)
    (hplan : req.prepare node layout part vertices = .ok (writes.map (.write part))) :
    Whole node (addVertices req) part (Write.applyAll writes) := by
  obtain ⟨batches, hbatches, hunits⟩ := AddVertices.prepare_eq_ok.1 hplan
  rw [eq_of_map_write hunits]
  exact .put (.addVertices hlayout hitems hbatches)

/-- What is prepared for an insertion of edges is the whole of it. -/
theorem addEdges_whole (req : AddEdges) (edges : List NewEdge)
    (hlayout : node.layout req.space true = .ok layout) (hitems : req.parts[part]? = some edges)
    (hplan : req.prepare node layout part edges = .ok (writes.map (.write part))) :
    Whole node (addEdges req) part (Write.applyAll writes) := by
  obtain ⟨batches, hbatches, hunits⟩ := AddEdges.prepare_eq_ok.1 hplan
  rw [eq_of_map_write hunits]
  exact .put (.addEdges hlayout hitems hbatches)

/-- What is prepared for a deletion of vertices is the whole of it. -/
theorem deleteVertices_whole (req : DeleteVertices) (vids : List VertexId)
    (hlayout : node.layout req.space false = .ok layout) (hitems : req.parts[part]? = some vids)
    (hplan : req.prepare node layout part vids = .ok (writes.map (.write part))) :
    Whole node (deleteVertices req) part (Write.applyAll writes) := by
  obtain ⟨removals, hremovals, hunits⟩ := DeleteVertices.prepare_eq_ok.1 hplan
  rw [eq_of_map_write hunits, funext (DeleteVertices.applyAll_removalWrites removals)]
  exact .deleteVertices hlayout hitems hremovals

/-- What is prepared for a deletion of edges is the whole of it. -/
theorem deleteEdges_whole (req : DeleteEdges) (edges : List EdgeKey)
    (hlayout : node.layout req.space true = .ok layout) (hitems : req.parts[part]? = some edges)
    (hplan : req.prepare node layout part edges = .ok (writes.map (.write part))) :
    Whole node (deleteEdges req) part (Write.applyAll writes) := by
  obtain ⟨keys, hkeys, hunits⟩ := DeleteEdges.prepare_eq_ok.1 hplan
  rw [eq_of_map_write hunits]
  exact .deleteEdges hlayout hitems hkeys

end Prepared

/-- Inserting vertices is all or nothing. -/
theorem addVertices_allOrNothing (hhonest : node.store.HonestFailures) (req : AddVertices) :
    AllOrNothing node.store ((addVertices req).run node).1.store req.space
      ((addVertices req).listed node) (· ∈ req.parts)
      (Applied (Whole node (addVertices req)) (addVertices req).Idle) := by
  have hidle (layout : SpaceLayout) (part : PartId) (vertices : List NewVertex)
      (_ : req.parts[part]? = some vertices) (h : req.prepare node layout part vertices = .ok []) :
      (addVertices req).Idle part := by
    obtain ⟨batches, -, hunits⟩ := AddVertices.prepare_eq_ok.1 h
    cases hunits
  -- Forgetting cached rows leaves the store as it is.
  have hall (cached : Node) (hhonest : cached.store.HonestFailures) :=
    runUnits_allOrNothing cached req.space hhonest (req.preparesWrites node)
      (node.layout_truthful _ _) (req.prepare_truthful node) hidle
      fun layout part vertices writes => addVertices_whole layout part writes req vertices
  rw [listed, run, Node.addVertices]
  split
  · exact hall (node.evict _) hhonest
  · exact hall node hhonest

/-- Inserting edges is all or nothing. -/
theorem addEdges_allOrNothing (hhonest : node.store.HonestFailures) (req : AddEdges) :
    AllOrNothing node.store ((addEdges req).run node).1.store req.space
      ((addEdges req).listed node) (· ∈ req.parts)
      (Applied (Whole node (addEdges req)) (addEdges req).Idle) := by
  refine runUnits_allOrNothing node req.space hhonest (req.preparesWrites node)
    (node.layout_truthful _ _) (req.prepare_truthful node) (fun layout part edges _ h => ?_)
    fun layout part edges writes => addEdges_whole layout part writes req edges
  obtain ⟨batches, -, hunits⟩ := AddEdges.prepare_eq_ok.1 h
  cases hunits

/-- Deleting vertices is all or nothing. -/
theorem deleteVertices_allOrNothing (hhonest : node.store.HonestFailures) (req : DeleteVertices) :
    AllOrNothing node.store ((deleteVertices req).run node).1.store req.space
      ((deleteVertices req).listed node) (· ∈ req.parts)
      (Applied (Whole node (deleteVertices req)) (deleteVertices req).Idle) := by
  have hidle (layout : SpaceLayout) (part : PartId) (vids : List VertexId)
      (hitems : req.parts[part]? = some vids) (h : req.prepare node layout part vids = .ok []) :
      (deleteVertices req).Idle part := by
    obtain ⟨removals, hremovals, hunits⟩ := DeleteVertices.prepare_eq_ok.1 h
    have hranges := (List.append_eq_nil_iff.1 (List.map_eq_nil_iff.1 hunits.symm)).1
    rw [List.map_eq_nil_iff.1 hranges, List.forall₂_nil_right_iff] at hremovals
    obtain rfl := hremovals
    exact hitems
  -- Forgetting cached rows leaves the store as it is.
  have hall (cached : Node) (hhonest : cached.store.HonestFailures) :=
    runUnits_allOrNothing cached req.space hhonest (req.preparesWrites node)
      (node.layout_truthful _ _) (req.prepare_truthful node) hidle
      fun layout part vids writes => deleteVertices_whole layout part writes req vids
  rw [listed, run, Node.deleteVertices]
  split
  · exact hall (node.evict _) hhonest
  · exact hall node hhonest

/-- Deleting edges is all or nothing. -/
theorem deleteEdges_allOrNothing (hhonest : node.store.HonestFailures) (req : DeleteEdges) :
    AllOrNothing node.store ((deleteEdges req).run node).1.store req.space
      ((deleteEdges req).listed node) (· ∈ req.parts)
      (Applied (Whole node (deleteEdges req)) (deleteEdges req).Idle) := by
  refine runUnits_allOrNothing node req.space hhonest (req.preparesWrites node)
    (node.layout_truthful _ _) (req.prepare_truthful node) (fun layout part edges _ h => ?_)
    fun layout part edges writes => deleteEdges_whole layout part writes req edges
  obtain ⟨keys, -, hunits⟩ := DeleteEdges.prepare_eq_ok.1 h
  cases hunits

/-- Inserting edges through chains is all or nothing. -/
theorem addEdgesChained_allOrNothing (hhonest : node.store.HonestFailures)
    (hwriter : node.chainWriter = .toSource) (req : AddEdges) (schedule : List Nat) :
    AllOrNothing node.store ((addEdgesChained req schedule).run node).1.store req.space
      ((addEdgesChained req schedule).listed node) (· ∈ req.parts)
      (Applied (Whole node (addEdgesChained req schedule)) (addEdgesChained req schedule).Idle) := by
  rw [listed, run]
  cases hlayout : node.layout req.space true with
  | error code =>
    have hcode : code ≠ .succeeded := fun h =>
      (node.layout_truthful req.space true).ne_succeeded (by rw [hlayout, h])
    rw [node.addEdgesChained_of_error req schedule hlayout]
    have hlisted := Node.mem_collectFailures_keys (node.leader req.space) req.parts fun _ => code
    refine .of_parts (Tracker.nodup_collectFailures _) (fun _ _ => rfl)
      (fun part habsent => ⟨rfl, fun h => ?_⟩)
      fun part edges hedges => .inl ⟨(hlisted part).2 ⟨?_, hcode⟩, rfl⟩
    · obtain ⟨edges, hedges⟩ := PartMap.mem_iff_getElem?.1 ((hlisted part).1 h).1
      cases habsent.symm.trans hedges
    · exact PartMap.mem_iff_getElem?.2 ⟨edges, hedges⟩
  | ok layout =>
    have hstore : (node.forChains !layout.indexes.isEmpty).store = node.store := by
      rw [Node.forChains]
      split <;> rfl
    refine .of_parts ?_ (fun addr h => ?_)
      (fun part habsent => Node.addEdgesChained_absent schedule hwriter hlayout habsent)
      fun part edges hedges => ?_
    · obtain ⟨order, -, -, hfailed⟩ := node.addEdgesChained_of_ok req schedule hwriter hlayout
      rw [hfailed]
      exact Tracker.nodup_collectFailures _
    · exact Node.addEdgesChained_parts_of_filter schedule hwriter hlayout fun heq => absurd heq h
    cases hstage : req.stage node layout part edges with
    | error code =>
      obtain ⟨hsame, hlisted⟩ :=
        Node.addEdgesChained_refused schedule hwriter hlayout hedges hstage
      exact .inl ⟨hlisted.2 fun h => (req.stage_truthful node layout part edges).ne_succeeded
        (by rw [hstage, h]), hsame⟩
    | ok staged =>
      obtain ⟨ready, hready, rfl⟩ := AddEdges.stage_eq_ok.1 hstage
      obtain ⟨order, horder, hcontent, hlisted⟩ :=
        Node.addEdgesChained_prepared schedule hwriter hlayout hedges hstage
      rw [← hstore] at hhonest hcontent ⊢
      refine nothingOrAll_of_writable hhonest (.put (.addEdgesChained hlayout hedges hready horder))
        hcontent hlisted fun hempty => ?_
      obtain rfl : order = [] := not_not.1 hempty
      refine ⟨?_, rfl⟩
      have hnone : ready = [] := by
        by_contra hne
        exact AddEdges.chainsOf_ne_nil hne (List.nil_perm.1 horder)
      rw [hnone, List.forall₂_nil_right_iff] at hready
      obtain rfl := hready
      exact hedges

/-- A batch mutation leaves each partition as it is or applies the whole of its batch, also when a
failure is called a success. -/
theorem run_change (m : BatchMutation) (hwriter : node.chainWriter = .toSource) (addr : Address) :
    (m.run node).1.store.parts[addr]? = node.store.parts[addr]? ∨
      addr.space = m.space ∧ ∃ change, Whole node m addr.part change ∧
        (m.run node).1.store.parts[addr]? = node.store.parts[addr]?.map change := by
  cases m with
  | addVertices req =>
    have hall (cached : Node) (hstore : cached.store = node.store) := hstore ▸
      runUnits_change cached req.space (req.preparesWrites node)
        (fun layout part vertices writes => addVertices_whole layout part writes req vertices) addr
    rw [run, Node.addVertices]
    split
    · exact hall (node.evict _) rfl
    · exact hall node rfl
  | addEdges req =>
    exact runUnits_change node req.space (req.preparesWrites node)
      (fun layout part edges writes => addEdges_whole layout part writes req edges) addr
  | deleteVertices req =>
    have hall (cached : Node) (hstore : cached.store = node.store) := hstore ▸
      runUnits_change cached req.space (req.preparesWrites node)
        (fun layout part vids writes => deleteVertices_whole layout part writes req vids) addr
    rw [run, Node.deleteVertices]
    split
    · exact hall (node.evict _) rfl
    · exact hall node rfl
  | deleteEdges req =>
    exact runUnits_change node req.space (req.preparesWrites node)
      (fun layout part edges writes => deleteEdges_whole layout part writes req edges) addr
  | addEdgesChained req schedule =>
    obtain ⟨space, part⟩ := addr
    rw [run]
    cases hlayout : node.layout req.space true with
    | error code =>
      rw [node.addEdgesChained_of_error req schedule hlayout]
      exact .inl rfl
    | ok layout =>
      by_cases hspace : space = req.space
      case neg =>
        exact .inl (Node.addEdgesChained_parts_of_filter schedule hwriter hlayout
          fun heq => absurd heq hspace)
      subst hspace
      cases hedges : req.parts[part]? with
      | none => exact .inl (Node.addEdgesChained_absent schedule hwriter hlayout hedges).1
      | some edges =>
        cases hstage : req.stage node layout part edges with
        | error code =>
          exact .inl (Node.addEdgesChained_refused schedule hwriter hlayout hedges hstage).1
        | ok staged =>
          obtain ⟨ready, hready, rfl⟩ := AddEdges.stage_eq_ok.1 hstage
          obtain ⟨order, horder, hcontent, -⟩ :=
            Node.addEdgesChained_prepared schedule hwriter hlayout hedges hstage
          split at hcontent
          · exact .inr ⟨rfl, _, .put (.addEdgesChained hlayout hedges hready horder), hcontent⟩
          · exact .inl hcontent

/-- Every batch mutation is all or nothing for each partition, provided that no failure set for a
partition is called a success and chains go to their sources. -/
theorem allOrNothing_whole (m : BatchMutation) (hhonest : node.store.HonestFailures)
    (hwriter : ∀ req schedule, m = addEdgesChained req schedule → node.chainWriter = .toSource) :
    AllOrNothing node.store (m.run node).1.store m.space (m.listed node) m.Requests
      (Applied (Whole node m) m.Idle) := by
  cases m with
  | addVertices req => exact addVertices_allOrNothing hhonest req
  | addEdges req => exact addEdges_allOrNothing hhonest req
  | addEdgesChained req schedule =>
    exact addEdgesChained_allOrNothing hhonest (hwriter req schedule rfl) req schedule
  | deleteVertices req => exact deleteVertices_allOrNothing hhonest req
  | deleteEdges req => exact deleteEdges_allOrNothing hhonest req

/-- A requested partition that is not listed takes the whole of its batch. -/
theorem whole_of_not_listed (m : BatchMutation) (hhonest : node.store.HonestFailures)
    (hwriter : ∀ req schedule, m = addEdgesChained req schedule → node.chainWriter = .toSource)
    {part : PartId} (hrequested : m.Requests part) (hlisted : part ∉ m.listed node) :
    ∃ change, Whole node m part change ∧
      (m.run node).1.store.parts[(⟨m.space, part⟩ : Address)]? =
        node.store.parts[(⟨m.space, part⟩ : Address)]?.map change := by
  obtain ⟨change, hwhole, hcontent, -⟩ :=
    (m.allOrNothing_whole hhonest hwriter).all part hrequested hlisted
  exact ⟨change, hwhole, hcontent⟩

end BatchMutation

end GraphStore
