import GraphStore.Proofs.Mutation.AllOrNothing
import GraphStore.Proofs.Mutation.Grouping

/-!
# Chained inserts do what plain inserts do

Inserting edges through chains adds one condition, that destinations have a partition, and changes
the order in which edges are prepared, grouped and put. For a request of which every partition has
edges, all to canonical ids that have a partition, both ways leave the same contents behind and fail
the same partitions.
-/

namespace GraphStore

namespace AddEdges

variable {req : AddEdges} {node : Node} {layout : SpaceLayout} {part : PartId}
  {edges : List NewEdge}

/-- Whether all edges of a request go to vertices that have a partition. -/
def Placed (req : AddEdges) (placement : Placement) : Prop :=
  ∀ (part : PartId) (edges : List NewEdge), req.parts[part]? = some edges → ∀ edge ∈ edges,
    ∃ target, placement.locate req.space edge.key.dst = .ok target

/-- Edges made ready have the entries that they have when they are not grouped. -/
theorem entries_of_readyEdge {ready : List ReadyEdge}
    (hready : List.Forall₂ (fun edge ready => req.readyEdge node layout part edge = .ok ready)
      edges ready) :
    List.Forall₂ (fun edge batch => req.entries node layout part edge = .ok batch) edges
      (ready.map fun edge => edge.row :: edge.indexEntries) := by
  induction hready with
  | nil => exact .nil
  | cons hedge _ ih => exact .cons (readyEdge_eq_ok.1 hedge).2 ih

/-- Edges that have entries are ready when their destinations have partitions. -/
theorem exists_readyEdge {batches : List (List Entry)}
    (htargets : ∀ edge ∈ edges, ∃ target, node.placement.locate req.space edge.key.dst = .ok target)
    (hbatches : List.Forall₂ (fun edge batch => req.entries node layout part edge = .ok batch)
      edges batches) :
    ∃ ready, List.Forall₂ (fun edge ready => req.readyEdge node layout part edge = .ok ready)
      edges ready := by
  induction hbatches with
  | nil => exact ⟨[], .nil⟩
  | @cons edge batch edges batches hedge hrest ih =>
    obtain ⟨⟨target, htarget⟩, hothers⟩ := List.forall_mem_cons.1 htargets
    obtain ⟨ready, hready⟩ := ih hothers
    obtain ⟨schema, raw, key, keys, -, -, -, -, rfl⟩ := entries_eq_ok.1 hedge
    exact ⟨⟨target, (key, raw), indexEntries keys⟩ :: ready,
      .cons (readyEdge_eq_ok.2 ⟨htarget, hedge⟩) hready⟩

/-- Edges that go to partitions are staged when they are prepared. -/
theorem stage_of_prepare {units : List WorkUnit}
    (htargets : ∀ edge ∈ edges, ∃ target, node.placement.locate req.space edge.key.dst = .ok target)
    (h : req.prepare node layout part edges = .ok units) :
    ∃ staged, req.stage node layout part edges = .ok staged := by
  obtain ⟨batches, hbatches, -⟩ := prepare_eq_ok.1 h
  obtain ⟨ready, hready⟩ := exists_readyEdge htargets hbatches
  exact ⟨_, stage_eq_ok.2 ⟨ready, hready, rfl⟩⟩

/-- Staged edges are prepared as one put of their entries. -/
theorem prepare_of_readyEdge {ready : List ReadyEdge}
    (hready : List.Forall₂ (fun edge ready => req.readyEdge node layout part edge = .ok ready)
      edges ready) :
    req.prepare node layout part edges =
      .ok ([Write.put (entriesOf ready)].map (.write part)) :=
  prepare_eq_ok.2 ⟨_, entries_of_readyEdge hready, by rw [entriesOf, List.flatMap_def]⟩

end AddEdges

namespace Node

variable {node : Node} {req : AddEdges}

/-- With no partition down, chains see the node as it is. -/
theorem forChains_of_up (hup : node.down = []) (atomic : Bool) : node.forChains atomic = node := by
  cases atomic with
  | false => rfl
  | true =>
    rw [forChains, if_pos rfl, ← hup]

/-- A plain insert leaves a partition that is not requested as it is, and does not list it. -/
theorem addEdges_absent {part : PartId} (habsent : req.parts[part]? = none) :
    (node.addEdges req).1.store.parts[(⟨req.space, part⟩ : Address)]? =
        node.store.parts[(⟨req.space, part⟩ : Address)]? ∧
      part ∉ (node.addEdges req).2.failed.map (·.part) :=
  runUnits_absent node req.space (req.preparesWrites node) habsent

/-- Without a layout both ways change nothing and fail every requested partition. -/
theorem addEdgesChained_unplanned {code : ErrorCode}
    (hlayout : node.layout req.space true = .error code) (schedule : List Nat) (part : PartId) :
    (node.addEdgesChained req schedule).1.store.parts[(⟨req.space, part⟩ : Address)]? =
        (node.addEdges req).1.store.parts[(⟨req.space, part⟩ : Address)]? ∧
      (part ∈ (node.addEdgesChained req schedule).2.failed.map (·.part) ↔
        part ∈ (node.addEdges req).2.failed.map (·.part)) := by
  rw [node.addEdgesChained_of_error req schedule hlayout, mem_collectFailures_keys]
  cases hitems : req.parts[part]? with
  | none =>
    have habsent : part ∉ req.parts := fun hmem => by
      obtain ⟨edges, hedges⟩ := PartMap.mem_iff_getElem?.1 hmem
      cases hitems.symm.trans hedges
    obtain ⟨hsame, hunlisted⟩ := addEdges_absent hitems
    exact ⟨hsame.symm, iff_of_false (fun h => habsent h.1) hunlisted⟩
  | some edges =>
    have hmem : part ∈ req.parts := PartMap.mem_iff_getElem?.2 ⟨edges, hitems⟩
    have hplan : (node.layout req.space true).bind
        (fun layout => req.prepare node layout part edges) = .error code := by
      rw [hlayout]
      rfl
    obtain ⟨hsame, hlisted⟩ :=
      runUnits_refused node req.space (req.preparesWrites node) hitems hplan
    exact ⟨hsame.symm, (and_iff_right hmem).trans hlisted.symm⟩

/-- A partition is treated in both ways alike. -/
theorem addEdgesChained_planned (hwriter : node.chainWriter = .toSource) (hup : node.down = [])
    (hdst : req.ToCanonical) (hplaced : req.Placed node.placement)
    (hedges : ∀ (part : PartId) (edges : List NewEdge), req.parts[part]? = some edges → edges ≠ [])
    {layout : SpaceLayout} (hlayout : node.layout req.space true = .ok layout)
    (schedule : List Nat) (part : PartId) :
    (node.addEdgesChained req schedule).1.store.parts[(⟨req.space, part⟩ : Address)]? =
        (node.addEdges req).1.store.parts[(⟨req.space, part⟩ : Address)]? ∧
      (part ∈ (node.addEdgesChained req schedule).2.failed.map (·.part) ↔
        part ∈ (node.addEdges req).2.failed.map (·.part)) := by
  have hbind (edges : List NewEdge) : (node.layout req.space true).bind
      (fun layout => req.prepare node layout part edges) = req.prepare node layout part edges := by
    rw [hlayout]
    rfl
  cases hitems : req.parts[part]? with
  | none =>
    obtain ⟨hsame, hunlisted⟩ := addEdgesChained_absent schedule hwriter hlayout hitems
    obtain ⟨hsame', hunlisted'⟩ := addEdges_absent hitems
    exact ⟨hsame.trans hsame'.symm, iff_of_false hunlisted hunlisted'⟩
  | some edges =>
    cases hstage : req.stage node layout part edges with
    | error code =>
      cases hprepare : req.prepare node layout part edges with
      | ok units =>
        obtain ⟨staged, hstaged⟩ := AddEdges.stage_of_prepare (hplaced part edges hitems) hprepare
        cases hstaged.symm.trans hstage
      | error code' =>
        obtain ⟨hsame, hlisted⟩ := addEdgesChained_refused schedule hwriter hlayout hitems hstage
        obtain ⟨hsame', hlisted'⟩ := runUnits_refused node req.space (req.preparesWrites node) hitems
          ((hbind edges).trans hprepare)
        refine ⟨hsame.trans hsame'.symm, iff_of_true (hlisted.2 ?_) (hlisted'.2 ?_)⟩
        · exact fun h => (req.stage_truthful node layout part edges).ne_succeeded (by rw [hstage, h])
        · exact fun h => (req.prepare_truthful node layout part edges).ne_succeeded
            (by rw [hprepare, h])
    | ok staged =>
      obtain ⟨ready, hready, rfl⟩ := AddEdges.stage_eq_ok.1 hstage
      have hseparate := AddEdges.separate_of_readyEdge (hdst part edges hitems) hready
      obtain ⟨order, horder, hcontent, hlisted⟩ :=
        addEdgesChained_prepared schedule hwriter hlayout hitems hstage
      obtain ⟨hcontent', hlisted'⟩ := runUnits_prepared node req.space (req.preparesWrites node) hitems
        ((hbind edges).trans (AddEdges.prepare_of_readyEdge hready))
      rw [forChains_of_up hup] at hcontent hlisted
      rw [addEdges]
      constructor
      · have hput : (fun p : Partition => p.put (order.flatMap (·.batch))) =
            Write.applyAll [.put (AddEdges.entriesOf ready)] :=
          funext fun p => AddEdges.put_chainsOf hseparate horder p
        rw [hcontent, hcontent', hput]
      · have hne : ready ≠ [] := by
          rintro rfl
          exact hedges part edges hitems (List.forall₂_nil_right_iff.1 hready)
        have horder' : order ≠ [] := fun hnil =>
          AddEdges.chainsOf_ne_nil hne (List.nil_perm.1 (hnil ▸ horder))
        rw [hlisted, hlisted', and_iff_right horder', and_iff_right (List.cons_ne_nil _ _)]

/-- Where every partition has edges, all of them to canonical ids that have a partition, chained
inserts leave the same contents behind as plain ones and fail the same partitions. -/
theorem addEdgesChained_refines_addEdges (node : Node) (req : AddEdges) (schedule : List Nat)
    (hwriter : node.chainWriter = .toSource) (hup : node.down = []) (hdst : req.ToCanonical)
    (hplaced : req.Placed node.placement)
    (hedges : ∀ (part : PartId) (edges : List NewEdge), req.parts[part]? = some edges → edges ≠ []) :
    (node.addEdgesChained req schedule).1.store.parts = (node.addEdges req).1.store.parts ∧
      ∀ part, part ∈ (node.addEdgesChained req schedule).2.failed.map (·.part) ↔
        part ∈ (node.addEdges req).2.failed.map (·.part) := by
  have hpart (part : PartId) :
      (node.addEdgesChained req schedule).1.store.parts[(⟨req.space, part⟩ : Address)]? =
          (node.addEdges req).1.store.parts[(⟨req.space, part⟩ : Address)]? ∧
        (part ∈ (node.addEdgesChained req schedule).2.failed.map (·.part) ↔
          part ∈ (node.addEdges req).2.failed.map (·.part)) := by
    cases hlayout : node.layout req.space true with
    | error code => exact addEdgesChained_unplanned hlayout schedule part
    | ok layout =>
      exact addEdgesChained_planned hwriter hup hdst hplaced hedges hlayout schedule part
  refine ⟨Std.ExtTreeMap.ext_getElem? fun addr => ?_, fun part => (hpart part).2⟩
  obtain ⟨space, part⟩ := addr
  by_cases hspace : space = req.space
  · rw [hspace]
    exact (hpart part).1
  · have hplain : (node.addEdges req).1.store.parts[(⟨space, part⟩ : Address)]? =
        node.store.parts[(⟨space, part⟩ : Address)]? :=
      runUnits_parts_of_ne node req.space _ hspace
    rw [hplain]
    cases hlayout : node.layout req.space true with
    | error code => rw [node.addEdgesChained_of_error req schedule hlayout]
    | ok layout =>
      exact addEdgesChained_parts_of_filter schedule hwriter hlayout fun heq => absurd heq hspace

/-- Three edges of one vertex, of which the last repeats the first, with an index over their type. -/
theorem addEdgesChained_refines_addEdges_of_repeated_edge :
    let node : Node := {
      store := ({} : Store).addPart ⟨1, 1⟩ default
      catalog := ((Catalog.addSpace {} 1 8).addEdge 1 7 "follows" { columns := [] }).addIndex 1
        { id := 5, name := "follows_index", owner := .edge 7, columns := [] }
      placement := .table [("a", 1), ("b", 2), ("c", 1)] }
    let req : AddEdges := {
      space := 1
      parts := .insert ∅ 1
        [⟨⟨"a", 7, 0, "b"⟩, []⟩, ⟨⟨"a", 7, 0, "c"⟩, []⟩, ⟨⟨"a", 7, 0, "b"⟩, []⟩] }
    (node.chainWriter = .toSource ∧ node.down = [] ∧ req.ToCanonical ∧ req.Placed node.placement ∧
        ∀ (part : PartId) (edges : List NewEdge), req.parts[part]? = some edges → edges ≠ []) ∧
      (node.addEdgesChained req [1]).1.store.parts = (node.addEdges req).1.store.parts ∧
        ∀ part, part ∈ (node.addEdgesChained req [1]).2.failed.map (·.part) ↔
          part ∈ (node.addEdges req).2.failed.map (·.part) := by
  intro node req
  have hitems (part : PartId) (edges : List NewEdge) (h : req.parts[part]? = some edges) : edges =
      [⟨⟨"a", 7, 0, "b"⟩, []⟩, ⟨⟨"a", 7, 0, "c"⟩, []⟩, ⟨⟨"a", 7, 0, "b"⟩, []⟩] := by
    rw [Std.ExtTreeMap.getElem?_insert] at h
    split at h
    · exact (Option.some.inj h).symm
    · cases h
  have hdst : req.ToCanonical := by
    intro part edges h
    rw [hitems part edges h]
    decide
  have hplaced : req.Placed node.placement := by
    intro part edges h edge hedge
    rw [hitems part edges h] at hedge
    simp only [List.mem_cons, List.not_mem_nil, or_false] at hedge
    rcases hedge with rfl | rfl | rfl
    · exact ⟨2, rfl⟩
    · exact ⟨1, rfl⟩
    · exact ⟨2, rfl⟩
  have hedges (part : PartId) (edges : List NewEdge) (h : req.parts[part]? = some edges) :
      edges ≠ [] := by
    rw [hitems part edges h]
    exact List.cons_ne_nil _ _
  exact ⟨⟨rfl, rfl, hdst, hplaced, hedges⟩,
    addEdgesChained_refines_addEdges node req [1] rfl rfl hdst hplaced hedges⟩

end Node

end GraphStore
