import GraphStore.Proofs.Query.Assembly

/-!
# What a lookup plan computes

A query can be evaluated without a plan: scan, join if a schema is given, filter if a condition is
given, and make rows. Running the plan of resolved branches evaluates them one after another. The
plan is first run as a list of operators, each of which appends its output to those before it; a
chain of operators then hands on one output, and the aggregate puts the rows of the ends together.
-/

namespace GraphStore

namespace Branch

/-- Hits with their rows, if the branch joins. -/
def joinRows (scope : QueryScope) (part : PartId) (branch : Branch) (cache : Option VertexCache)
    (hits : List Candidate) : Option VertexCache × Except ErrorCode (List Candidate) :=
  match branch.schema with
  | none => (cache, .ok hits)
  | some schema => scope.join part schema cache hits

/-- The hits that the branch's filter keeps. -/
def kept (branch : Branch) (hits : List Candidate) : List Candidate :=
  match branch.condition with
  | none => hits
  | some condition => hits.filter fun hit => condition.holds (hit.filterValue? branch.source)

/-- The result rows of hits with their rows. -/
def resultRows (branch : Branch) (hits : List Candidate) : List Row :=
  (branch.kept hits).map (Candidate.output branch.layout branch.returnColumns)

/-- What a branch finds on a partition. -/
def evaluate (scope : QueryScope) (part : PartId) (branch : Branch) (cache : Option VertexCache) :
    Option VertexCache × Except ErrorCode (List Row) :=
  match scope.scan part branch.layout branch.hints with
  | .error code => (cache, .error code)
  | .ok hits =>
    let (cache, joined) := branch.joinRows scope part cache hits
    (cache, joined.map branch.resultRows)

/-- What branches find on a partition one after another, up to the first that fails. -/
def evaluateAll (scope : QueryScope) (part : PartId) :
    List Branch → Option VertexCache → Option VertexCache × Except ErrorCode (List Row)
  | [], cache => (cache, .ok [])
  | branch :: rest, cache =>
    match branch.evaluate scope part cache with
    | (cache, .error code) => (cache, .error code)
    | (cache, .ok rows) =>
      let (cache, others) := evaluateAll scope part rest cache
      (cache, others.map (rows ++ ·))

end Branch

namespace Plan

variable {scope : QueryScope} {part : PartId} {plan : Plan} {cache : Option VertexCache}

/-- What a run has given so far: an output for each operator executed, the cache, and the rows of
the data. -/
structure Trace where
  flows : List Flow := []
  cache : Option VertexCache
  rows : List Row := []

/-- Executes operators one after another. -/
def runNodes (scope : QueryScope) (part : PartId) :
    List PlanNode → Trace → Trace × Except ErrorCode Unit
  | [], trace => (trace, .ok ())
  | node :: rest, trace =>
    match execute scope part node (trace.flows.map some) trace.cache with
    | (cache, .error code) => ({ trace with cache }, .error code)
    | (cache, .ok flow) =>
      runNodes scope part rest {
        flows := trace.flows ++ [flow]
        cache
        rows := trace.rows ++ collected node.operator flow }

/-- What is left behind of a run. -/
def Trace.toRun : Trace × Except ErrorCode Unit → Run
  | (trace, result) => { cache := trace.cache, rows := trace.rows, result }

/-- Operators are executed part by part. -/
theorem runNodes_append (nodes rest : List PlanNode) (trace : Trace) :
    runNodes scope part (nodes ++ rest) trace =
      match runNodes scope part nodes trace with
      | (trace, .error code) => (trace, .error code)
      | (trace, .ok ()) => runNodes scope part rest trace := by
  induction nodes generalizing trace with
  | nil => rfl
  | cons node nodes ih =>
    simp only [List.cons_append, runNodes]
    split
    · rfl
    · exact ih _

/-- Outputs that are not there yet do not count. -/
theorem execute_replicate (node : PlanNode) (flows : List Flow) (count : Nat) :
    execute scope part node (flows.map some ++ List.replicate count none) cache =
      execute scope part node (flows.map some) cache := by
  have hread (dep : Nat) : ((flows.map some ++ List.replicate count none)[dep]?).join =
      ((flows.map some)[dep]?).join := by
    rcases Nat.lt_or_ge dep (flows.map some).length with hlt | hge
    · rw [List.getElem?_append_left hlt]
    · rw [List.getElem?_append_right hge, List.getElem?_replicate, List.getElem?_eq_none hge]
      split <;> rfl
  simp only [execute, inputs, hread]

/-- A wired plan executes its operators one after another. -/
theorem go_eq_runNodes (h : Wired plan.nodes) :
    plan.go scope part cache = Trace.toRun (runNodes scope part plan.nodes { cache }) := by
  have hrun (nodes : List PlanNode) : ∀ trace : Trace,
      plan.nodes.drop trace.flows.length = nodes →
      plan.runInOrder scope part (List.range' trace.flows.length nodes.length)
        (trace.flows.map some ++ List.replicate nodes.length none) trace.cache trace.rows =
          Trace.toRun (runNodes scope part nodes trace) := by
    induction nodes with
    | nil => exact fun _ _ => rfl
    | cons node rest ih =>
      intro trace hnodes
      have hnode : plan.nodes[trace.flows.length]? = some node := by
        rw [← List.head?_drop, hnodes]
        rfl
      have hrest : plan.nodes.drop (trace.flows.length + 1) = rest := by
        rw [← List.drop_drop, hnodes]
        rfl
      simp only [List.length_cons, List.range'_succ, runInOrder, hnode, execute_replicate, runNodes]
      rcases execute scope part node (trace.flows.map some) trace.cache with ⟨after, _ | flow⟩
      · rfl
      · have hset : (trace.flows.map some ++ List.replicate (rest.length + 1) none).set
            trace.flows.length (some flow) =
              (trace.flows ++ [flow]).map some ++ List.replicate rest.length none := by
          rw [List.set_append_right _ _ (by simp)]
          simp [List.replicate_succ]
        have hnext := ih {
          flows := trace.flows ++ [flow]
          cache := after
          rows := trace.rows ++ collected node.operator flow } (by simpa using hrest)
        simpa [hset] using hnext
  have hstart := hrun plan.nodes { cache } rfl
  rw [go, executionOrder_of_wired h, List.range_eq_range', List.map_const']
  exact hstart

/-! ### Operators that add no rows to the data -/

/-- What operators do to a run that has come to `trace`, if they add no rows to its data: they end
as `outcome` says, and when they succeed there are `size` more outputs, of which `tells` holds. -/
inductive Adds {α : Type} (trace : Trace) (size : Nat) (tells : List Flow → α → Prop) :
    (outcome : Option VertexCache × Except ErrorCode α) → Trace × Except ErrorCode Unit → Prop where
  | ok {after : Trace} {flows : List Flow} {a : α} (hflows : after.flows = trace.flows ++ flows)
      (hsize : flows.length = size) (hrows : after.rows = trace.rows)
      (htells : tells after.flows a) :
      Adds trace size tells (after.cache, .ok a) (after, .ok ())
  | error (after : Trace) {code : ErrorCode} (hrows : after.rows = trace.rows) :
      Adds trace size tells (after.cache, .error code) (after, .error code)

namespace Adds

variable {α β : Type} {trace next : Trace} {size : Nat} {tells : List Flow → α → Prop}
  {outcome : Option VertexCache × Except ErrorCode α} {result : Trace × Except ErrorCode Unit}

/-- The outputs of operators before them count as well. -/
theorem behind {flows : List Flow} (h : Adds next size tells outcome result)
    (hflows : next.flows = trace.flows ++ flows) (hrows : next.rows = trace.rows) :
    Adds trace (flows.length + size) tells outcome result := by
  cases h with
  | ok hmore hsize hkept htells =>
    rw [hflows, List.append_assoc] at hmore
    exact .ok hmore (by rw [List.length_append, hsize]) (hkept.trans hrows) htells
  | error after hkept => exact .error after (hkept.trans hrows)

/-- The outcome is told of in other words. -/
theorem map {told : List Flow → β → Prop} {after : Option VertexCache}
    {found : Except ErrorCode β} {make : β → α}
    (h : Adds trace size tells (after, found.map make) result)
    (htold : ∀ flows b, tells flows (make b) → told flows b) :
    Adds trace size told (after, found) result := by
  cases found with
  | error code =>
    cases h with
    | error after hrows => exact .error after hrows
  | ok b =>
    cases h with
    | ok hflows hsize hrows htells => exact .ok hflows hsize hrows (htold _ _ htells)

end Adds

/-- Operators one after another, each on the output of the one before it. -/
def pipe (scope : QueryScope) (part : PartId) :
    List Operator → Option VertexCache → Flow → Option VertexCache × Except ErrorCode Flow
  | [], cache, flow => (cache, .ok flow)
  | operator :: rest, cache, flow =>
    match operator.run scope part cache [flow] with
    | (cache, .error code) => (cache, .error code)
    | (cache, .ok flow) => pipe scope part rest cache flow

/-- A chain hands one output on. -/
theorem adds_chain {operators : List Operator} {trace : Trace} {tail : Nat} {flow : Flow}
    (hlength : trace.flows.length = tail + 1) (htail : trace.flows[tail]? = some flow)
    (hquiet : ∀ operator ∈ operators, ∀ flow, collected operator flow = []) :
    Adds trace operators.length
      (fun flows last => flows[tail + operators.length]? = some last)
      (pipe scope part operators trace.cache flow)
      (runNodes scope part (Branch.chainNodes tail operators) trace) := by
  induction operators generalizing trace tail flow with
  | nil => exact .ok (List.append_nil _).symm rfl rfl htail
  | cons operator rest ih =>
    have hinputs : inputs (trace.flows.map some) [tail] = .ok [flow] := by
      simp only [inputs, List.mapM_cons, List.getElem?_map, htail]
      rfl
    simp only [pipe, Branch.chainNodes, runNodes, execute, hinputs]
    rcases operator.run scope part trace.cache [flow] with ⟨after, code | next⟩
    · exact .error { trace with cache := after } rfl
    · have hrows : trace.rows ++ collected operator next = trace.rows := by
        rw [hquiet operator List.mem_cons_self, List.append_nil]
      have hrest := (@ih {
        flows := trace.flows ++ [next]
        cache := after
        rows := trace.rows ++ collected operator next } (tail + 1) next (by simp [hlength])
          (by simp [← hlength]) fun other hother =>
            hquiet other (List.mem_cons_of_mem _ hother)).behind rfl hrows
      have hend : tail + (operator :: rest).length = tail + 1 + rest.length := by
        rw [List.length_cons]
        omega
      rw [hend, List.length_cons, Nat.add_comm rest.length]
      exact hrest

/-- Behind the scan of a branch, its operators join, filter and make rows. -/
theorem pipe_followers (branch : Branch) (hits : List Candidate) :
    pipe scope part branch.followers cache (.candidates hits) =
      ((branch.joinRows scope part cache hits).1,
        ((branch.joinRows scope part cache hits).2.map branch.resultRows).map .rows) := by
  have hjoined (cache : Option VertexCache) (hits : List Candidate) :
      pipe scope part
        ((branch.condition.map fun condition => Operator.filter condition branch.source).toList ++
          [.output branch.layout branch.returnColumns]) cache (.candidates hits) =
        (cache, .ok (.rows (branch.resultRows hits))) := by
    unfold Branch.resultRows Branch.kept
    cases branch.condition <;> rfl
  rw [Branch.followers, List.append_assoc]
  unfold Branch.joinRows
  cases branch.schema with
  | none => exact hjoined cache hits
  | some schema =>
    simp only [Option.map_some, Option.toList_some, List.singleton_append, pipe, Operator.run,
      Flow.onlyCandidates]
    rcases scope.join part schema cache hits with ⟨after, code | joined⟩
    · rfl
    · exact hjoined after joined

/-- A branch finds what its evaluation finds. -/
theorem adds_branch (scope : QueryScope) (part : PartId) (branch : Branch) (trace : Trace) :
    Adds trace branch.size
      (fun flows rows => flows[trace.flows.length + branch.followers.length]? = some (.rows rows))
      (branch.evaluate scope part trace.cache)
      (runNodes scope part (branch.nodesAt trace.flows.length) trace) := by
  have hquiet : ∀ operator ∈ branch.followers, ∀ flow, collected operator flow = [] := by
    intro operator hoperator flow
    simp only [Branch.followers, List.mem_append, Option.mem_toList, Option.map_eq_some_iff,
      List.mem_singleton] at hoperator
    obtain (⟨schema, -, rfl⟩ | ⟨condition, -, rfl⟩) | rfl := hoperator <;> rfl
  have hscan : execute scope part branch.scanNode (trace.flows.map some) trace.cache =
      (trace.cache, (scope.scan part branch.layout branch.hints).map .candidates) := rfl
  simp only [Branch.nodesAt, runNodes, hscan, Branch.evaluate]
  cases scope.scan part branch.layout branch.hints with
  | error code => exact .error trace rfl
  | ok hits =>
    have hchain := @adds_chain scope part branch.followers {
      flows := trace.flows ++ [.candidates hits]
      cache := trace.cache
      rows := trace.rows ++ [] } trace.flows.length (.candidates hits) (by simp) (by simp) hquiet
    rw [pipe_followers] at hchain
    have hadds := (hchain.map fun _ _ htells => htells).behind rfl (List.append_nil trace.rows)
    rw [Branch.size, Nat.add_comm]
    exact hadds

/-- Outputs stay when others are added. -/
theorem getElem?_append_of_some {flows others : List Flow} {id : Nat} {flow : Flow}
    (h : flows[id]? = some flow) : (flows ++ others)[id]? = some flow := by
  rw [List.getElem?_append_left (List.getElem?_eq_some_iff.1 h).1, h]

/-- Branches find what their evaluation finds, each at its end. -/
theorem adds_branches (scope : QueryScope) (part : PartId) (branches : List Branch)
    (trace : Trace) :
    Adds trace (Branch.allNodesAt trace.flows.length branches).length
      (fun flows rows => ∃ parts,
        List.Forall₂ (fun output found => flows[output]? = some (.rows found))
          (Branch.outputsAt trace.flows.length branches) parts ∧ parts.flatten = rows)
      (Branch.evaluateAll scope part branches trace.cache)
      (runNodes scope part (Branch.allNodesAt trace.flows.length branches) trace) := by
  induction branches generalizing trace with
  | nil => exact .ok (List.append_nil _).symm rfl rfl ⟨[], .nil, rfl⟩
  | cons branch rest ih =>
    have hbranch := adds_branch scope part branch trace
    simp only [Branch.allNodesAt, runNodes_append, Branch.evaluateAll]
    generalize branch.evaluate scope part trace.cache = found at hbranch
    generalize runNodes scope part (branch.nodesAt trace.flows.length) trace = result at hbranch
    cases hbranch with
    | error after hrows => exact .error after hrows
    | @ok after flows rows hflows hsize hrows htells =>
      have hlength : after.flows.length = trace.flows.length + branch.size := by
        rw [hflows, List.length_append, hsize]
      have hrest := ih after
      rw [hlength] at hrest
      dsimp only
      generalize Branch.evaluateAll scope part rest after.cache = found at hrest
      generalize runNodes scope part _ after = result at hrest
      cases hrest with
      | error last hkept => exact .error last (hkept.trans hrows)
      | @ok last more others hmore hcount hkept htold =>
        obtain ⟨parts, hparts, rfl⟩ := htold
        have hend : last.flows[trace.flows.length + branch.followers.length]? =
            some (.rows rows) := by
          rw [hmore]
          exact getElem?_append_of_some htells
        have hall : last.flows = trace.flows ++ (flows ++ more) := by
          rw [hmore, hflows, List.append_assoc]
        refine .ok hall ?_ (hkept.trans hrows) ⟨rows :: parts, .cons hend hparts, rfl⟩
        rw [List.length_append, List.length_append, hsize, hcount, Branch.length_nodesAt]

/-- An aggregate puts the rows of its inputs together. -/
theorem execute_aggregate {deps : List Nat} {flows : List Flow} {parts : List (List Row)}
    (h : List.Forall₂ (fun dep found => flows[dep]? = some (.rows found)) deps parts) :
    execute scope part ⟨.aggregate, deps⟩ (flows.map some) cache =
      (cache, .ok (.rows parts.flatten)) := by
  have hinputs : inputs (flows.map some) deps = .ok (parts.map .rows) := by
    rw [inputs, mapM_eq_ok]
    induction h with
    | nil => exact .nil
    | cons hfirst _ ih => exact .cons (by simp [hfirst]) ih
  have hrows : (parts.map Flow.rows).mapM Flow.getRows = .ok parts := by
    rw [mapM_eq_ok, List.forall₂_map_left_iff]
    exact List.forall₂_same.2 fun _ _ => rfl
  simp only [execute, hinputs, Operator.run, hrows]
  rfl

/-- The plan of resolved branches gives what their evaluation gives. -/
theorem go_ofBranches (columns : List String) (branches : List Branch) (scope : QueryScope)
    (part : PartId) (cache : Option VertexCache) :
    (ofBranches columns branches).go scope part cache = {
      cache := (Branch.evaluateAll scope part branches cache).1
      rows := match (Branch.evaluateAll scope part branches cache).2 with
        | .ok rows => rows
        | .error _ => []
      result := (Branch.evaluateAll scope part branches cache).2.map fun _ => () } := by
  rw [go_eq_runNodes (wired_ofBranches columns branches)]
  have hbranches := adds_branches scope part branches { cache }
  simp only [ofBranches, runNodes_append]
  dsimp only [List.length_nil] at hbranches
  generalize Branch.evaluateAll scope part branches cache = found at hbranches ⊢
  generalize runNodes scope part (Branch.allNodesAt 0 branches) { cache } = result at hbranches ⊢
  cases hbranches with
  | error after hrows =>
    simp only [Trace.toRun, hrows]
    rfl
  | ok hflows hsize hrows htells =>
    obtain ⟨parts, hparts, rfl⟩ := htells
    simp only [runNodes, execute_aggregate hparts, Trace.toRun, collected, hrows]
    rfl

end Plan

end GraphStore
