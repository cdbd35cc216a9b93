import GraphStore.Proofs.Query.Wiring
import GraphStore.Query.Branch

/-!
# The operators of a lookup plan

A plan is built from the resolved branches of its queries: each adds a scan and a chain behind it,
and the aggregate behind all of them depends on the ends of the chains. So a plan is refused with
what the first query is refused that cannot be resolved, and every plan that is built is wired.
-/

namespace GraphStore

/-- Whether an operator hands on hits of the one it depends on. -/
def Operator.PassesHits : Operator → Prop
  | join _ _ => True
  | filter _ _ => True
  | _ => False

namespace Branch

variable {plan : Plan} {branches : List Branch}

/-- Operators, each fed by the one before it; the first by operator `tail`. -/
def chainNodes : (tail : Nat) → List Operator → List PlanNode
  | _, [] => []
  | tail, operator :: rest => ⟨operator, [tail]⟩ :: chainNodes (tail + 1) rest

/-- The scan of a branch. -/
def scanNode (branch : Branch) : PlanNode := ⟨.scan branch.layout branch.hints, []⟩

/-- The operators of a branch, of which the scan is number `start`. -/
def nodesAt (start : Nat) (branch : Branch) : List PlanNode :=
  branch.scanNode :: chainNodes start branch.followers

/-- Number of operators of a branch. -/
def size (branch : Branch) : Nat := branch.followers.length + 1

/-- The operators of branches one after another. -/
def allNodesAt : (start : Nat) → List Branch → List PlanNode
  | _, [] => []
  | start, branch :: rest => branch.nodesAt start ++ allNodesAt (start + branch.size) rest

/-- The ends of branches one after another. -/
def outputsAt : (start : Nat) → List Branch → List Nat
  | _, [] => []
  | start, branch :: rest =>
    (start + branch.followers.length) :: outputsAt (start + branch.size) rest

/-- A chain has its operators. -/
@[simp] theorem length_chainNodes (tail : Nat) (operators : List Operator) :
    (chainNodes tail operators).length = operators.length := by
  induction operators generalizing tail with
  | nil => rfl
  | cons operator rest ih => simp [chainNodes, ih]

/-- A branch has its operators. -/
@[simp] theorem length_nodesAt (start : Nat) (branch : Branch) :
    (branch.nodesAt start).length = branch.size := by
  simp [nodesAt, size]

/-- A chain goes on where its first part ends. -/
theorem chainNodes_append (tail : Nat) (operators rest : List Operator) :
    chainNodes tail (operators ++ rest) =
      chainNodes tail operators ++ chainNodes (tail + operators.length) rest := by
  induction operators generalizing tail with
  | nil => rfl
  | cons operator operators ih =>
    simp [chainNodes, ih, Nat.add_assoc, Nat.add_comm 1]

/-- A chain is added behind the last operator. -/
theorem addChain_eq (operators : List Operator) {tail : Nat} (h : plan.nodes.length = tail + 1) :
    addChain plan tail operators =
      .ok ({ plan with nodes := plan.nodes ++ chainNodes tail operators },
        tail + operators.length) := by
  induction operators generalizing plan tail with
  | nil => simp [addChain, chainNodes]
  | cons operator rest ih =>
    have hadd : plan.addNode operator [tail] =
        .ok ({ plan with nodes := plan.nodes ++ [⟨operator, [tail]⟩] }, tail + 1) := by
      simp [Plan.addNode, h]
    have hrest := @ih { plan with nodes := plan.nodes ++ [⟨operator, [tail]⟩] } (tail + 1)
      (by simp [h])
    simp only [addChain, hadd]
    refine hrest.trans ?_
    simp [chainNodes, Nat.add_assoc, Nat.add_comm 1]

/-- A branch is added behind the operators that are there. -/
theorem addTo_eq (branch : Branch) (plan : Plan) :
    branch.addTo plan =
      .ok ({ plan with nodes := plan.nodes ++ branch.nodesAt plan.nodes.length },
        plan.nodes.length + branch.followers.length) := by
  have hadd : plan.addNode (.scan branch.layout branch.hints) [] =
      .ok ({ plan with nodes := plan.nodes ++ [branch.scanNode] },
        plan.nodes.length) := rfl
  simp only [addTo, hadd]
  refine (addChain_eq branch.followers (by simp)).trans ?_
  simp [nodesAt, scanNode]

/-- The end of a branch is among the operators that it adds. -/
theorem lt_of_mem_outputsAt {start output : Nat} (h : output ∈ outputsAt start branches) :
    output < start + (allNodesAt start branches).length := by
  induction branches generalizing start with
  | nil => cases h
  | cons branch rest ih =>
    simp only [allNodesAt, List.length_append, length_nodesAt]
    rcases List.mem_cons.1 h with rfl | h
    · rw [size]
      omega
    · have := ih h
      omega

/-- The operators of a branch between its scan and its output. -/
def middle (branch : Branch) : List Operator :=
  (branch.schema.map (Operator.join branch.layout.isEdge)).toList ++
    (branch.condition.map fun condition => Operator.filter condition branch.source).toList

/-- The output comes last. -/
theorem followers_eq (branch : Branch) :
    branch.followers = branch.middle ++ [.output branch.layout branch.returnColumns] := rfl

end Branch

/-- The branches of queries; the first query that cannot be resolved refuses them all. -/
def IndexQuery.branches (catalog : Catalog) (space : SpaceId) (vidLen : Nat) (owner : SchemaRef)
    (columns : List String) (queries : List IndexQuery) : Except ErrorCode (List Branch) :=
  queries.mapM fun query => query.branch catalog space vidLen owner columns

namespace Plan

variable {plan : Plan} {nodes : List PlanNode}
  {catalog : Catalog} {space : SpaceId} {vidLen : Nat} {owner : SchemaRef} {columns : List String}

/-- The plan of resolved branches. -/
def ofBranches (columns : List String) (branches : List Branch) : Plan where
  nodes := Branch.allNodesAt 0 branches ++ [⟨.aggregate, Branch.outputsAt 0 branches⟩]
  data := { columns }

/-- Queries add their branches once all of them are resolved. -/
theorem addBranches_eq (queries : List IndexQuery) (plan : Plan) :
    plan.addBranches catalog space vidLen owner columns queries =
      (IndexQuery.branches catalog space vidLen owner columns queries).map fun branches =>
        ({ plan with nodes := plan.nodes ++ Branch.allNodesAt plan.nodes.length branches },
          Branch.outputsAt plan.nodes.length branches) := by
  unfold IndexQuery.branches
  induction queries generalizing plan with
  | nil => simp [addBranches, Branch.allNodesAt, Branch.outputsAt, Except.map, pure, Except.pure]
  | cons query rest ih =>
    rw [addBranches, List.mapM_cons]
    cases query.branch catalog space vidLen owner columns with
    | error code => rfl
    | ok branch =>
      simp only [bind, Except.bind, Branch.addTo_eq, ih]
      cases rest.mapM fun query => query.branch catalog space vidLen owner columns with
      | error code => rfl
      | ok branches =>
        simp [Except.map, pure, Except.pure, Branch.allNodesAt, Branch.outputsAt, Branch.size]

/-- A plan is built of the branches of its queries, or refused with what the first of them is
refused that cannot be resolved. -/
theorem build_eq (indices : IndexSpec) :
    build catalog space vidLen indices columns =
      if indices.queries = [] then .error .invalidOperation
      else
        (IndexQuery.branches catalog space vidLen (.of indices.isEdge indices.schemaId) columns
          indices.queries).map (ofBranches (resultColumns indices.isEdge columns)) := by
  simp only [build, List.isEmpty_iff]
  split
  · rfl
  · simp only [addBranches_eq]
    cases IndexQuery.branches catalog space vidLen (.of indices.isEdge indices.schemaId) columns
      indices.queries with
    | error code => rfl
    | ok branches =>
      have hdeps : ((Branch.outputsAt 0 branches).any
          ((Branch.allNodesAt 0 branches).length ≤ ·)) = false := by
        rw [List.any_eq_false]
        intro output houtput
        have := Branch.lt_of_mem_outputsAt houtput
        simp
        omega
      simp [Except.map, bind, Except.bind, pure, Except.pure, addNode, Plan.new, hdeps, ofBranches]

/-- An operator that is told of is told of as well when others are added. -/
theorem makesRows?_append {id : Nat} {rows : Bool} (h : makesRows? nodes id = some rows)
    (others : List PlanNode) : makesRows? (nodes ++ others) id = some rows := by
  rw [makesRows?, List.getElem?_append_left (lt_of_makesRows? h)]
  exact h

/-- The operator behind others is told of. -/
theorem makesRows?_concat (nodes : List PlanNode) (node : PlanNode) :
    makesRows? (nodes ++ [node]) nodes.length = some node.operator.makesRows := by
  rw [makesRows?, List.getElem?_concat_length]
  rfl

/-- A chain of operators that hand on hits is fed. -/
theorem Wired.addChain {operators : List Operator} {tail : Nat} (h : Wired nodes)
    (hlength : nodes.length = tail + 1) (htail : makesRows? nodes tail = some false)
    (hpass : ∀ operator ∈ operators, operator.PassesHits) :
    Wired (nodes ++ Branch.chainNodes tail operators) ∧
      makesRows? (nodes ++ Branch.chainNodes tail operators) (tail + operators.length) =
        some false := by
  induction operators generalizing nodes tail with
  | nil => simpa [Branch.chainNodes] using ⟨h, htail⟩
  | cons operator rest ih =>
    have hfirst := hpass operator List.mem_cons_self
    have hnode : PlanNode.FedBy ⟨operator, [tail]⟩ nodes ∧ operator.makesRows = false := by
      cases operator with
      | join onEdges schema => exact ⟨⟨tail, rfl, htail⟩, rfl⟩
      | filter condition source => exact ⟨⟨tail, rfl, htail⟩, rfl⟩
      | scan layout hints => exact hfirst.elim
      | output layout columns => exact hfirst.elim
      | aggregate => exact hfirst.elim
    have hlast := makesRows?_concat nodes ⟨operator, [tail]⟩
    rw [hlength, hnode.2] at hlast
    have hrest := ih (h.snoc hnode.1) (by simp [hlength]) hlast fun other hother =>
      hpass other (List.mem_cons_of_mem _ hother)
    simpa [Branch.chainNodes, Nat.add_assoc, Nat.add_comm 1] using hrest

/-- A branch is fed, and its end makes rows. -/
theorem Wired.addBranch (h : Wired nodes) (branch : Branch) :
    Wired (nodes ++ branch.nodesAt nodes.length) ∧
      makesRows? (nodes ++ branch.nodesAt nodes.length)
        (nodes.length + branch.followers.length) = some true := by
  have hscan : Wired (nodes ++ [branch.scanNode]) := h.snoc rfl
  have hpass : ∀ operator ∈ branch.middle, operator.PassesHits := by
    intro operator hoperator
    simp only [Branch.middle, List.mem_append, Option.mem_toList, Option.map_eq_some_iff]
      at hoperator
    obtain ⟨schema, -, rfl⟩ | ⟨condition, -, rfl⟩ := hoperator <;> trivial
  obtain ⟨hmiddle, htail⟩ := hscan.addChain (by simp) (makesRows?_concat ..) hpass
  have hnodes : nodes ++ branch.nodesAt nodes.length =
      nodes ++ [branch.scanNode] ++
        Branch.chainNodes nodes.length branch.middle ++
          [⟨.output branch.layout branch.returnColumns, [nodes.length + branch.middle.length]⟩] := by
    simp [Branch.nodesAt, Branch.followers_eq, Branch.chainNodes_append, Branch.chainNodes]
  have hlength : nodes.length + branch.followers.length =
      (nodes ++ [branch.scanNode] ++
        Branch.chainNodes nodes.length branch.middle).length := by
    simp [Branch.followers_eq]
  rw [hnodes, hlength]
  exact ⟨hmiddle.snoc ⟨_, rfl, htail⟩, makesRows?_concat ..⟩

/-- Branches are fed, and their ends make rows. -/
theorem Wired.addBranches (h : Wired nodes) (branches : List Branch) :
    Wired (nodes ++ Branch.allNodesAt nodes.length branches) ∧
      ∀ output ∈ Branch.outputsAt nodes.length branches,
        makesRows? (nodes ++ Branch.allNodesAt nodes.length branches) output = some true := by
  induction branches generalizing nodes with
  | nil => simpa [Branch.allNodesAt, Branch.outputsAt] using h
  | cons branch rest ih =>
    obtain ⟨hbranch, hend⟩ := h.addBranch branch
    have hrest := ih hbranch
    simp only [List.length_append, Branch.length_nodesAt, List.append_assoc] at hrest
    obtain ⟨hwired, hends⟩ := hrest
    refine ⟨hwired, List.forall_mem_cons.2 ⟨?_, hends⟩⟩
    rw [Branch.allNodesAt, ← List.append_assoc]
    exact makesRows?_append hend _

/-- The plan of resolved branches is wired. -/
theorem wired_ofBranches (columns : List String) (branches : List Branch) :
    Wired (ofBranches columns branches).nodes := by
  obtain ⟨hwired, houtputs⟩ := Wired.nil.addBranches branches
  exact hwired.snoc houtputs

end Plan

end GraphStore
