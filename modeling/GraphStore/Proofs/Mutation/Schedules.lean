import GraphStore.Proofs.Fanout.Flight
import GraphStore.Proofs.Mutation.AllOrNothing
import GraphStore.Proofs.Mutation.ChainFlight
import GraphStore.Proofs.Mutation.Grouping

/-!
# The schedule does not matter

A batch mutation has its units or chains carried out side by side. Any two of its writes to one
partition may change places: deletions only remove, an insertion has one put for each partition,
and different chains agree on what they share. So a mutation leaves the same store behind and lists
the same failures, whatever the order in which its work is carried out and completes.
-/

namespace GraphStore

open Relation (ReflTransGen)

namespace BatchMutation

variable {node : Node} {result : Node × Response}

/-- What a mutation can come to when its work is carried out side by side. Rows are forgotten by the
cache before anything is dispatched, and chains are reported after all of them have been written. -/
inductive ComesTo (node : Node) : BatchMutation → Node × Response → Prop where
  | addVertices {req : AddVertices} {cached : Node} {result : Node × Response}
      (hcached : cached = if node.cache.isSome then
        node.evict (gather (node.layout req.space false) req.parts (req.evicted node)) else node)
      (h : cached.Dispatches req.space
        (unitsOf (node.layout req.space false) req.parts (req.prepare node)) result) :
      ComesTo node (.addVertices req) result
  | addEdges {req : AddEdges} {result : Node × Response}
      (h : node.Dispatches req.space
        (unitsOf (node.layout req.space true) req.parts (req.prepare node)) result) :
      ComesTo node (.addEdges req) result
  | unplanned {req : AddEdges} {schedule : List Nat} {code : ErrorCode} {result : Node × Response}
      (hlayout : node.layout req.space true = .error code)
      (h : node.Dispatches req.space (req.parts.keys.map fun part => .report part code) result) :
      ComesTo node (.addEdgesChained req schedule) result
  | addEdgesChained {req : AddEdges} {schedule : List Nat} {layout : SpaceLayout} {after : Node}
      {results : List (ChainId × ErrorCode)} {result : Node × Response}
      (hlayout : node.layout req.space true = .ok layout)
      (hchains : WritesTo node.config.maxChainInflight
        (Node.writeBatch req.space layout.vidLen !layout.indexes.isEmpty) node
        (req.split node layout).chains (after, results))
      (h : after.Dispatches req.space (req.parts.keys.map fun part =>
        .report part (partCode (req.split node layout).failed results part)) result) :
      ComesTo node (.addEdgesChained req schedule) result
  | deleteVertices {req : DeleteVertices} {cached : Node} {result : Node × Response}
      (hcached : cached = if node.cache.isSome then
        node.evict (gather (node.layout req.space false) req.parts (req.evicted node)) else node)
      (h : cached.Dispatches req.space
        (unitsOf (node.layout req.space false) req.parts (req.prepare node)) result) :
      ComesTo node (.deleteVertices req) result
  | deleteEdges {req : DeleteEdges} {result : Node × Response}
      (h : node.Dispatches req.space
        (unitsOf (node.layout req.space true) req.parts (req.prepare node)) result) :
      ComesTo node (.deleteEdges req) result

/-- One code for each of some partitions is reported by a unit for each. -/
theorem reportParts_keys {α : Type} (node : Node) (space : SpaceId) (parts : PartMap α)
    (codeOf : PartId → ErrorCode) :
    node.reportParts space (parts.keys.map fun part => (part, codeOf part)) =
      node.runUnits space (parts.keys.map fun part => .report part (codeOf part)) := by
  rw [Node.reportParts, List.map_map]
  rfl

/-- To carry a mutation out in order is one of the ways. -/
theorem comesTo_run (m : BatchMutation) (node : Node) : m.ComesTo node (m.run node) := by
  cases m with
  | addVertices req => exact .addVertices rfl (Node.dispatches_runUnits ..)
  | addEdges req => exact .addEdges (Node.dispatches_runUnits ..)
  | deleteVertices req => exact .deleteVertices rfl (Node.dispatches_runUnits ..)
  | deleteEdges req => exact .deleteEdges (Node.dispatches_runUnits ..)
  | addEdgesChained req schedule =>
    rw [run, Node.addEdgesChained]
    cases hlayout : node.layout req.space true with
    | error code =>
      refine .unplanned hlayout ?_
      dsimp only
      rw [reportParts_keys node req.space req.parts fun _ => code]
      exact Node.dispatches_runUnits ..
    | ok layout =>
      refine .addEdgesChained hlayout (writesTo_writeChains _ _ _ _ schedule) ?_
      dsimp only
      rw [reportParts_keys]
      exact Node.dispatches_runUnits ..

/-- A single write may change places with itself. -/
theorem commute_of_single {writes : List Write} {w : Write} {part : PartId}
    (hunits : writes.map (WorkUnit.write part) = [w].map (.write part)) :
    ∀ x ∈ writes, ∀ y ∈ writes, x.Commute y := by
  rw [eq_of_map_write hunits]
  intro x hx y hy
  rw [List.mem_singleton.1 hx, List.mem_singleton.1 hy]
  exact .refl w

section Independent

variable (node : Node) (layout : Except ErrorCode SpaceLayout)

/-- An insertion of vertices has one write for each partition. -/
theorem independent_addVertices (req : AddVertices) :
    WorkUnit.Independent (unitsOf layout req.parts (req.prepare node)) :=
  independent_unitsOf (req.preparesWrites node) fun _ _ _ _ h =>
    commute_of_single (AddVertices.prepare_eq_ok.1 h).choose_spec.2

/-- An insertion of edges has one write for each partition. -/
theorem independent_addEdges (req : AddEdges) :
    WorkUnit.Independent (unitsOf layout req.parts (req.prepare node)) :=
  independent_unitsOf (req.preparesWrites node) fun _ _ _ _ h =>
    commute_of_single (AddEdges.prepare_eq_ok.1 h).choose_spec.2

/-- A deletion of edges has one write for each partition. -/
theorem independent_deleteEdges (req : DeleteEdges) :
    WorkUnit.Independent (unitsOf layout req.parts (req.prepare node)) :=
  independent_unitsOf (req.preparesWrites node) fun _ _ _ _ h =>
    commute_of_single (DeleteEdges.prepare_eq_ok.1 h).choose_spec.2

/-- A deletion of vertices only removes. -/
theorem independent_deleteVertices (req : DeleteVertices) :
    WorkUnit.Independent (unitsOf layout req.parts (req.prepare node)) := by
  refine independent_unitsOf (req.preparesWrites node) fun layout part vids writes h => ?_
  obtain ⟨removals, -, hunits⟩ := DeleteVertices.prepare_eq_ok.1 h
  rw [eq_of_map_write hunits]
  have hremoval : ∀ w ∈ DeleteVertices.removalWrites removals, w.Removal := by
    intro w hw
    rcases List.mem_append.1 hw with hrange | hkeys
    · obtain ⟨⟨stem, keys⟩, -, rfl⟩ := List.mem_map.1 hrange
      exact .removeRange stem (Key.upperBound stem)
    · split at hkeys
      · cases hkeys
      · rw [List.mem_singleton.1 hkeys]
        exact .remove _
  exact fun w hw w' hw' => (hremoval w hw).commute (hremoval w' hw')

end Independent

/-- One code for each of some partitions may be reported in any order. -/
theorem independent_reports {α : Type} (parts : PartMap α) (codeOf : PartId → ErrorCode) :
    WorkUnit.Independent (parts.keys.map fun part => .report part (codeOf part)) where
  commute part w w' hw _ := by
    obtain ⟨other, -, heq⟩ := List.mem_map.1 hw
    cases heq
  alone part code hreport unit hunit hpart := by
    obtain ⟨other, -, heq⟩ := List.mem_map.1 hreport
    obtain ⟨rfl, rfl⟩ := WorkUnit.report.inj heq
    obtain ⟨other', -, rfl⟩ := List.mem_map.1 hunit
    obtain rfl : other' = other := hpart
    rfl

/-- Chains of edges to canonical ids leave the same store behind and are reported alike in every
order. -/
theorem addEdgesChained_of_writesTo (hwriter : node.chainWriter = .toSource) {req : AddEdges}
    (hdst : req.ToCanonical) (schedule : List Nat) {layout : SpaceLayout}
    (hlayout : node.layout req.space true = .ok layout) {after : Node}
    {results : List (ChainId × ErrorCode)}
    (hchains : WritesTo node.config.maxChainInflight
      (Node.writeBatch req.space layout.vidLen !layout.indexes.isEmpty) node
      (req.split node layout).chains (after, results)) :
    after.store = (node.addEdgesChained req schedule).1.store ∧
      (after.reportParts req.space (req.parts.keys.map fun part =>
        (part, partCode (req.split node layout).failed results part))).2.failed =
        (node.addEdgesChained req schedule).2.failed := by
  obtain ⟨order, horder, hafter, hresults⟩ := hchains.exists_order
  obtain ⟨order', horder', hnode, hfailed⟩ :=
    node.addEdgesChained_of_ok req schedule hwriter hlayout
  obtain ⟨hcodes, hsetting, -⟩ := Node.writeInOrder_spec req.space layout.vidLen
    (!layout.indexes.isEmpty) hwriter order
  dsimp only at hafter hresults
  have hstore {order : List ChainBatch} (horder : order.Perm (req.split node layout).chains) :
      (writeInOrder (Node.writeBatch req.space layout.vidLen !layout.indexes.isEmpty) node
        order).1.store = ((node.forChains !layout.indexes.isEmpty).performAll req.space
          (Node.chainWrites (req.split node layout).chains)).store := by
    rw [Node.writeInOrder_store _ _ _ hwriter]
    exact congrArg Node.store (Node.performAll_perm _ _ (horder.map _)
      (AddEdges.commute_chainWrites_split hdst))
  constructor
  · rw [hafter, hnode, hstore horder, hstore horder']
  · have hanswers := (hcodes ▸ hresults).trans ((horder.trans horder'.symm).map _)
    have hcode (part : PartId) := AddEdges.partCode_perm (req.split node layout).failed
      hanswers (fun a ha b hb hsource => by
        obtain ⟨chain, -, rfl⟩ := List.mem_map.1 ha
        obtain ⟨chain', -, rfl⟩ := List.mem_map.1 hb
        dsimp only at hsource
        rw [hsource]) part
    rw [Node.reportParts_eq, hfailed, hafter, hsetting.leader]
    simp only [hcode]

/-- A mutation leaves the same store behind and lists the same failures whatever the order in which
its work is carried out and completes, provided that chains go to their sources and to canonical
ids. -/
theorem eq_run_of_comesTo (m : BatchMutation) (node : Node)
    (hchained : ∀ req schedule, m = addEdgesChained req schedule →
      node.chainWriter = .toSource ∧ req.ToCanonical) :
    m.ComesTo node (m.run node) ∧ ∀ result, m.ComesTo node result →
      result.1.store = (m.run node).1.store ∧
        result.2.failed.Perm (m.run node).2.failed := by
  have hsame {space : SpaceId} {units : List WorkUnit} (hunits : WorkUnit.Independent units)
      {cached : Node} {result : Node × Response} (h : cached.Dispatches space units result) :
      result.1.store = (cached.runUnits space units).1.store ∧
        result.2.failed.Perm (cached.runUnits space units).2.failed := by
    obtain ⟨hnode, hfailed⟩ := h.eq_runUnits hunits
    exact ⟨congrArg Node.store hnode, hfailed⟩
  refine ⟨m.comesTo_run node, fun result h => ?_⟩
  cases h with
  | addVertices hcached h =>
    rw [run, Node.addVertices, ← hcached]
    exact hsame (independent_addVertices ..) h
  | addEdges h => exact hsame (independent_addEdges ..) h
  | deleteVertices hcached h =>
    rw [run, Node.deleteVertices, ← hcached]
    exact hsame (independent_deleteVertices ..) h
  | deleteEdges h => exact hsame (independent_deleteEdges ..) h
  | @unplanned req schedule code result hlayout h =>
    rw [run, Node.addEdgesChained, hlayout]
    dsimp only
    rw [reportParts_keys node req.space req.parts fun _ => code]
    exact hsame (independent_reports ..) h
  | @addEdgesChained req schedule layout after results result hlayout hchains h =>
    obtain ⟨hwriter, hdst⟩ := hchained req schedule rfl
    obtain ⟨hstore, hfailed⟩ :=
      addEdgesChained_of_writesTo hwriter hdst schedule hlayout hchains
    obtain ⟨hafter, hlisted⟩ := hsame (independent_reports ..) h
    rw [← reportParts_keys] at hafter hlisted
    rw [hfailed] at hlisted
    rw [Node.reportParts_eq] at hafter
    exact ⟨hafter.trans hstore, hlisted⟩

/-- Two edges of one vertex go through chains to different partitions, the second of which completes
first. -/
theorem eq_run_of_comesTo_of_two_chains :
    let node : Node := {
      store := (({} : Store).addPart ⟨1, 1⟩ default).addPart ⟨1, 2⟩ default
      catalog := ((Catalog.addSpace {} 1 8).addEdge 1 7 "follows" { columns := [] }).addIndex 1
        { id := 5, name := "follows_index", owner := .edge 7, columns := [] }
      placement := .table [("a", 1), ("b", 1), ("c", 2)] }
    let req : AddEdges := {
      space := 1
      parts := .insert ∅ 1 [⟨⟨"a", 7, 0, "b"⟩, []⟩, ⟨⟨"a", 7, 0, "c"⟩, []⟩] }
    let m := addEdgesChained req [1]
    (∀ req schedule, m = addEdgesChained req schedule →
        node.chainWriter = .toSource ∧ req.ToCanonical) ∧
      m.ComesTo node (m.run node) ∧ ∀ result, m.ComesTo node result →
        result.1.store = (m.run node).1.store ∧
          result.2.failed.Perm (m.run node).2.failed := by
  intro node req m
  have hdst : req.ToCanonical := by
    intro part edges hedges
    rw [Std.ExtTreeMap.getElem?_insert] at hedges
    split at hedges
    · obtain rfl := Option.some.inj hedges
      decide
    · cases hedges
  have hchained : ∀ req schedule, m = addEdgesChained req schedule →
      node.chainWriter = .toSource ∧ req.ToCanonical := by
    intro other schedule heq
    obtain ⟨rfl, -⟩ := addEdgesChained.inj heq
    exact ⟨rfl, hdst⟩
  exact ⟨hchained, eq_run_of_comesTo m node hchained⟩

end BatchMutation

end GraphStore
