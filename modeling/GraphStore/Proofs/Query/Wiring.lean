import GraphStore.Proofs.Outcome
import GraphStore.Proofs.Query.Order
import GraphStore.Query.Plan

/-!
# Operators find their inputs

A plan is wired when every operator depends on earlier ones only, and on as many and of the kind
that it works on: a scan on none, an aggregate on operators that make rows, every other operator on
one that passes hits. The operators of a wired plan are executed in the order of their numbers, and
each finds its inputs whenever its turn comes.
-/

namespace GraphStore

/-- Whether a flow is one of rows. -/
def Flow.isRows : Flow → Bool
  | rows _ => true
  | candidates _ => false

namespace Operator

variable {scope : QueryScope} {part : PartId} {cache after : Option VertexCache} {op : Operator}
  {inputs : List Flow} {flow : Flow}

/-- Whether an operator makes rows; the others pass hits. -/
def makesRows : Operator → Bool
  | output _ _ => true
  | aggregate => true
  | _ => false

/-- The inputs that an operator works on. -/
def Takes : Operator → List Flow → Prop
  | scan _ _, inputs => inputs = []
  | aggregate, inputs => ∀ flow ∈ inputs, flow.isRows = true
  | _, inputs => ∃ hits, inputs = [.candidates hits]

/-- An operator that succeeds gives what it is to give. -/
theorem isRows_of_run (h : op.run scope part cache inputs = (after, .ok flow)) :
    flow.isRows = op.makesRows := by
  have hmap {α : Type} {x : Except ErrorCode α} {make : α → Flow} {rows : Bool}
      (hmake : ∀ a, (make a).isRows = rows) (h : x.map make = .ok flow) : flow.isRows = rows := by
    obtain ⟨a, -, rfl⟩ := map_eq_ok.1 h
    exact hmake a
  cases op with
  | scan layout hints => exact hmap (fun _ => rfl) (congrArg Prod.snd h)
  | filter condition source => exact hmap (fun _ => rfl) (congrArg Prod.snd h)
  | output layout columns => exact hmap (fun _ => rfl) (congrArg Prod.snd h)
  | aggregate => exact hmap (fun _ => rfl) (congrArg Prod.snd h)
  | join onEdges schema =>
    rw [run] at h
    split at h
    · cases h
    · exact hmap (fun _ => rfl) (congrArg Prod.snd h)

end Operator

/-- Whether the operator of a number makes rows; none if it is not there. -/
def Plan.makesRows? (nodes : List PlanNode) (id : Nat) : Option Bool :=
  nodes[id]?.map (·.operator.makesRows)

/-- Whether an operator depends on earlier ones of the kind that it works on. -/
def PlanNode.FedBy (node : PlanNode) (nodes : List PlanNode) : Prop :=
  match node.operator with
  | .scan _ _ => node.deps = []
  | .aggregate => ∀ dep ∈ node.deps, Plan.makesRows? nodes dep = some true
  | _ => ∃ dep, node.deps = [dep] ∧ Plan.makesRows? nodes dep = some false

namespace Plan

variable {scope : QueryScope} {part : PartId} {plan : Plan} {nodes : List PlanNode}
  {node : PlanNode} {outputs : Outputs} {flow : Flow} {id dep k : Nat} {rows : Bool}

/-- An operator that is told of is there. -/
theorem lt_of_makesRows? (h : makesRows? nodes id = some rows) : id < nodes.length := by
  obtain ⟨node, hnode, -⟩ := Option.map_eq_some_iff.1 h
  exact (List.getElem?_eq_some_iff.1 hnode).1

/-- Operators that are fed by the ones before them. -/
inductive Wired : List PlanNode → Prop where
  | nil : Wired []
  | snoc {nodes : List PlanNode} {node : PlanNode} (h : Wired nodes) (hnode : node.FedBy nodes) :
      Wired (nodes ++ [node])

/-- Every operator of a wired plan is fed by those before it. -/
theorem Wired.fedBy (h : Wired nodes) (hnode : nodes[k]? = some node) :
    node.FedBy (nodes.take k) := by
  induction h with
  | nil => cases hnode
  | @snoc nodes last _ hlast ih =>
    rcases Nat.lt_trichotomy k nodes.length with hlt | rfl | hgt
    · rw [List.getElem?_append_left hlt] at hnode
      rw [List.take_append_of_le_length (Nat.le_of_lt hlt)]
      exact ih hnode
    · rw [List.getElem?_concat_length] at hnode
      rw [List.take_left, ← Option.some.inj hnode]
      exact hlast
    · rw [List.getElem?_eq_none (by simp; omega)] at hnode
      cases hnode

/-- What an operator depends on is there before it. -/
theorem lt_of_fedBy (h : node.FedBy nodes) (hdep : dep ∈ node.deps) : dep < nodes.length := by
  unfold PlanNode.FedBy at h
  split at h
  · rw [h] at hdep
    cases hdep
  · exact lt_of_makesRows? (h dep hdep)
  · obtain ⟨only, honly, hrows⟩ := h
    rw [honly, List.mem_singleton] at hdep
    exact lt_of_makesRows? (hdep ▸ hrows)

/-- The operators of a wired plan depend on earlier ones. -/
theorem Wired.forward (h : Wired nodes) : Order.Forward (nodes.map (·.deps)) := by
  intro id dep hdep
  rw [Order.depsOf, List.getD_eq_getElem?_getD, List.getElem?_map] at hdep
  cases hnode : nodes[id]? with
  | none =>
    rw [hnode] at hdep
    cases hdep
  | some node =>
    rw [hnode] at hdep
    have hlt := lt_of_fedBy (h.fedBy hnode) hdep
    rw [List.length_take] at hlt
    omega

/-- The operators of a wired plan are executed in the order of their numbers. -/
theorem executionOrder_of_wired (h : Wired plan.nodes) :
    plan.executionOrder = List.range plan.nodes.length := by
  rw [executionOrder, Order.ofDependencies_eq_range h.forward, List.length_map]

/-- Every operator that a run comes to is there and finds the inputs it works on. -/
def Fed (scope : QueryScope) (part : PartId) (plan : Plan) :
    (order : List Nat) → Outputs → Option VertexCache → Prop
  | [], _, _ => True
  | id :: order, outputs, cache =>
    ∃ node found, plan.nodes[id]? = some node ∧ inputs outputs node.deps = .ok found ∧
      node.operator.Takes found ∧
      ∀ after flow, node.operator.run scope part cache found = (after, .ok flow) →
        Fed scope part plan order (outputs.set id (some flow)) after

/-- Every operator before number `k` has given what it is to give. -/
structure Filled (nodes : List PlanNode) (k : Nat) (outputs : Outputs) : Prop where
  length_eq : outputs.length = nodes.length
  kind : ∀ id < k, (outputs[id]?).join.map (·.isRows) = makesRows? nodes id

/-- An operator adds to what is filled in. -/
theorem Filled.set (h : Filled nodes k outputs) (hnode : nodes[k]? = some node)
    (hflow : flow.isRows = node.operator.makesRows) :
    Filled nodes (k + 1) (outputs.set k (some flow)) := by
  refine ⟨by rw [List.length_set, h.length_eq], fun id hid => ?_⟩
  rcases Nat.lt_succ_iff_lt_or_eq.1 hid with hlt | rfl
  · rw [List.getElem?_set_ne (Nat.ne_of_gt hlt)]
    exact h.kind id hlt
  · have hthere : id < outputs.length := by
      rw [h.length_eq]
      exact (List.getElem?_eq_some_iff.1 hnode).1
    rw [List.getElem?_set_self hthere, makesRows?, hnode]
    exact congrArg some hflow

/-- What has been given is read. -/
theorem Filled.read (h : Filled nodes k outputs) (hdep : makesRows? (nodes.take k) dep = some rows) :
    ∃ flow, (outputs[dep]?).join = some flow ∧ flow.isRows = rows := by
  have hlt : dep < k := by
    have := lt_of_makesRows? hdep
    rw [List.length_take] at this
    omega
  rw [makesRows?, List.getElem?_take_of_lt hlt, ← makesRows?, ← h.kind dep hlt] at hdep
  exact Option.map_eq_some_iff.1 hdep

/-- Inputs that have all been given are read together. -/
theorem inputs_eq_ok {deps : List Nat}
    (h : ∀ dep ∈ deps, ∃ flow, (outputs[dep]?).join = some flow ∧ flow.isRows = rows) :
    ∃ found, inputs outputs deps = .ok found ∧ ∀ flow ∈ found, flow.isRows = rows := by
  induction deps with
  | nil => exact ⟨[], rfl, nofun⟩
  | cons dep deps ih =>
    obtain ⟨flow, hflow, hrows⟩ := h dep List.mem_cons_self
    obtain ⟨found, hfound, hall⟩ := ih fun other hother =>
      h other (List.mem_cons_of_mem _ hother)
    refine ⟨flow :: found, ?_, List.forall_mem_cons.2 ⟨hrows, hall⟩⟩
    rw [inputs] at hfound ⊢
    simp only [List.mapM_cons, hflow, hfound]
    rfl

/-- An operator finds its inputs among what the operators before it have given. -/
theorem Filled.inputs (h : Filled nodes k outputs) (hnode : node.FedBy (nodes.take k)) :
    ∃ found, inputs outputs node.deps = .ok found ∧ node.operator.Takes found := by
  have hone (h' : ∃ dep, node.deps = [dep] ∧ makesRows? (nodes.take k) dep = some false) :
      ∃ hits, Plan.inputs outputs node.deps = .ok [.candidates hits] := by
    obtain ⟨dep, hdeps, hdep⟩ := h'
    obtain ⟨flow, hflow, hrows⟩ := h.read hdep
    cases flow with
    | rows found => cases hrows
    | candidates hits =>
      refine ⟨hits, ?_⟩
      simp only [Plan.inputs, hdeps, List.mapM_cons, hflow]
      rfl
  unfold PlanNode.FedBy at hnode
  cases hop : node.operator with
  | scan layout hints =>
    simp only [hop] at hnode
    exact ⟨[], by rw [hnode]; rfl, rfl⟩
  | join onEdges schema =>
    simp only [hop] at hnode
    obtain ⟨hits, hhits⟩ := hone hnode
    exact ⟨_, hhits, hits, rfl⟩
  | filter condition source =>
    simp only [hop] at hnode
    obtain ⟨hits, hhits⟩ := hone hnode
    exact ⟨_, hhits, hits, rfl⟩
  | output layout columns =>
    simp only [hop] at hnode
    obtain ⟨hits, hhits⟩ := hone hnode
    exact ⟨_, hhits, hits, rfl⟩
  | aggregate =>
    simp only [hop] at hnode
    obtain ⟨found, hfound, hrows⟩ := inputs_eq_ok fun dep hdep => h.read (hnode dep hdep)
    exact ⟨found, hfound, hrows⟩

/-- Every operator of a wired plan finds its inputs, whatever the others give. -/
theorem Wired.fed (h : Wired plan.nodes) (scope : QueryScope) (part : PartId)
    (cache : Option VertexCache) :
    plan.Fed scope part plan.executionOrder (plan.nodes.map fun _ => none) cache := by
  have hrun (count : Nat) : ∀ {k : Nat} {outputs : Outputs} {cache : Option VertexCache},
      Filled plan.nodes k outputs → k + count = plan.nodes.length →
        plan.Fed scope part (List.range' k count) outputs cache := by
    induction count with
    | zero => exact fun _ _ => trivial
    | succ count ih =>
      intro k outputs cache hfilled hcount
      have hk : k < plan.nodes.length := by omega
      have hnode := List.getElem?_eq_getElem hk
      obtain ⟨found, hfound, htakes⟩ := hfilled.inputs (h.fedBy hnode)
      rw [List.range'_succ]
      exact ⟨_, found, hnode, hfound, htakes, fun after flow hflow =>
        ih (hfilled.set hnode (Operator.isRows_of_run hflow)) (by omega)⟩
  rw [executionOrder_of_wired h, List.range_eq_range']
  refine hrun _ ⟨List.length_map .., fun id hid => absurd hid (Nat.not_lt_zero id)⟩ (Nat.zero_add _)

end Plan

end GraphStore
