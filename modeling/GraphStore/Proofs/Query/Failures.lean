import GraphStore.Proofs.Mutation.Refusals
import GraphStore.Proofs.Query.PlanRefinement

/-!
# What lookups fail with

A plan is refused, and a run on a partition fails, with a code that is no success. Without a cache a
run reads the store alone and leaves no cache behind.
-/

namespace GraphStore

/-- A failure told in other words is truthful, if the words are. -/
theorem Truthful.mapError {ε α : Type} {x : Except ε α} {tell : ε → ErrorCode}
    (h : ∀ e, x = .error e → Truthful (.error (tell e) : Except ErrorCode α)) :
    Truthful (x.mapError tell) := by
  cases x with
  | ok a => exact .ok a
  | error e => exact h e rfl

/-- A mapped result fails as the result does. -/
theorem Truthful.map {α β : Type} {x : Except ErrorCode α} {f : α → β} (h : Truthful x) :
    Truthful (x.map f) := by
  cases x with
  | ok a => exact .ok (f a)
  | error code => exact h.passOn

namespace Node

variable (node : Node) (space : SpaceId) (part : PartId)

/-- A read is refused by a partition that is down or absent. -/
theorem reading_truthful {α : Type} (f : Partition → α) :
    Truthful ((node.reading part (node.store.read ⟨space, part⟩ f)).mapError
      EngineCode.toErrorCode) :=
  .mapError fun _ hread => node.read_truthful space part f hread

/-- A range is refused as a read is, unless it is empty. -/
theorem range_truthful (start stop : Bytes) :
    Truthful ((node.range space part start stop).mapError EngineCode.toErrorCode) := by
  unfold range Store.range
  split
  · unfold reading
    split <;> exact ⟨nofun, nofun⟩
  · exact node.reading_truthful space part _

end Node

namespace IndexLayout

/-- Leading values are refused for one of them. -/
theorem encodeLeading_truthful (columns : List Column) (values : List Value) :
    Truthful (encodeLeading columns values) := by
  induction columns generalizing values with
  | nil => exact .ok []
  | cons column columns ih =>
    cases values with
    | nil => exact .ok []
    | cons value values =>
      exact (encodeValue_truthful column value).bind fun _ => (ih values).bind fun _ => .ok _

/-- A scan has no stem for more values than columns, nor for a value that does not fit. -/
theorem scanStem_truthful (layout : IndexLayout) (part : PartId) (leading : List Value) :
    Truthful (layout.scanStem part leading) := by
  unfold scanStem
  split
  · exact ⟨nofun, nofun⟩
  · exact (encodeLeading_truthful ..).bind fun _ => .ok _

/-- A key is not read if its parts do not take up all of it. -/
theorem decodeKey_truthful (layout : IndexLayout) (key : Bytes) :
    Truthful (layout.decodeKey key) := by
  unfold decodeKey
  dsimp only
  split
  · exact ⟨nofun, nofun⟩
  · split
    · exact ⟨nofun, nofun⟩
    · split
      · exact ⟨nofun, nofun⟩
      · exact .ok _

end IndexLayout

namespace QueryScope

variable (scope : QueryScope) (part : PartId)

/-- An index is not read for a hint that does not fit its column, or when its partition cannot be
read. -/
theorem readIndex_truthful (layout : IndexLayout) (hints : List ColumnHint) :
    Truthful (scope.readIndex part layout hints) := by
  refine (layout.scanStem_truthful part _).bind fun stem => ?_
  dsimp only
  split
  · exact scope.node.reading_truthful scope.space part _
  · split
    · refine Truthful.bind (.ok _) fun column => ?_
      refine (IndexLayout.encodeValue_truthful column _).bind fun low => ?_
      split
      · exact Truthful.bind (.ok _) fun _ => scope.node.range_truthful ..
      · exact (IndexLayout.encodeValue_truthful column _).bind fun _ =>
          Truthful.bind (.ok _) fun _ => scope.node.range_truthful ..
    · exact ⟨nofun, nofun⟩

/-- A scan fails for its read, or for a key that is no entry. -/
theorem scan_truthful (layout : IndexLayout) (hints : List ColumnHint) :
    Truthful (scope.scan part layout hints) := by
  have hcandidate (entry : Entry) : Truthful (candidate layout entry) :=
    (layout.decodeKey_truthful entry.1).bind fun _ => .ok _
  exact (scope.readIndex_truthful part layout hints).bind fun entries =>
    (Truthful.mapM hcandidate entries).bind fun _ => .ok _

/-- Without a cache the row of an entity is read from the store. -/
theorem entityRow_none (entity : Entity) :
    ∃ result, scope.entityRow part none entity = (none, result) ∧ Truthful result := by
  cases entity with
  | vertex vid =>
    exact ⟨_, rfl, (Key.vertex_truthful ..).bind fun _ => scope.node.reading_truthful ..⟩
  | edge edge =>
    exact ⟨_, rfl, (Key.edge_truthful ..).bind fun _ => scope.node.reading_truthful ..⟩

/-- Without a cache a join fails for the read of a row, and leaves no cache behind. -/
theorem join_none (schema : Schema) (hits : List Candidate) :
    ∃ result, scope.join part schema none hits = (none, result) ∧ Truthful result := by
  induction hits with
  | nil => exact ⟨_, rfl, .ok []⟩
  | cons hit hits ih =>
    obtain ⟨row, hrow, htruthful⟩ := scope.entityRow_none part hit.entity
    obtain ⟨others, hothers, hrest⟩ := ih
    simp only [join, hrow]
    cases row with
    | error code => exact ⟨_, rfl, htruthful.passOn⟩
    | ok raw =>
      simp only [hothers]
      exact ⟨_, rfl, hrest.map⟩

end QueryScope

namespace Branch

variable (scope : QueryScope) (part : PartId)

/-- Without a cache a branch fails for its scan or its join, and leaves no cache behind. -/
theorem evaluate_none (branch : Branch) :
    ∃ result, branch.evaluate scope part none = (none, result) ∧ Truthful result := by
  have hscan := scope.scan_truthful part branch.layout branch.hints
  unfold evaluate
  cases hfound : scope.scan part branch.layout branch.hints with
  | error code =>
    rw [hfound] at hscan
    exact ⟨_, rfl, hscan.passOn⟩
  | ok hits =>
    have hjoin : ∃ result, branch.joinRows scope part none hits = (none, result) ∧
        Truthful result := by
      unfold joinRows
      cases branch.schema with
      | none => exact ⟨_, rfl, .ok hits⟩
      | some schema => exact scope.join_none part schema hits
    obtain ⟨joined, hjoined, htruthful⟩ := hjoin
    exact ⟨joined.map branch.resultRows, by simp only [hjoined], htruthful.map⟩

/-- Without a cache branches fail for one of them, and leave no cache behind. -/
theorem evaluateAll_none (branches : List Branch) :
    ∃ result, evaluateAll scope part branches none = (none, result) ∧ Truthful result := by
  induction branches with
  | nil => exact ⟨_, rfl, .ok []⟩
  | cons branch branches ih =>
    obtain ⟨found, hfound, htruthful⟩ := branch.evaluate_none scope part
    obtain ⟨others, hothers, hrest⟩ := ih
    simp only [evaluateAll, hfound]
    cases found with
    | error code => exact ⟨_, rfl, htruthful.passOn⟩
    | ok rows =>
      simp only [hothers]
      exact ⟨_, rfl, hrest.map⟩

end Branch

namespace Plan

variable {catalog : Catalog} {space : SpaceId} {vidLen : Nat} {indices : IndexSpec}
  {columns : List String} {plan : Plan}

/-- Without a cache a plan fails on a partition for a scan or a join of one of its branches, and
leaves no cache behind. -/
theorem go_none (h : build catalog space vidLen indices columns = .ok plan) (scope : QueryScope)
    (part : PartId) :
    (plan.go scope part none).cache = none ∧ Truthful (plan.go scope part none).result := by
  obtain ⟨-, branches, -, rfl⟩ := build_eq_ok h
  obtain ⟨found, hfound, htruthful⟩ := Branch.evaluateAll_none scope part branches
  rw [go_ofBranches, hfound]
  exact ⟨rfl, htruthful.map⟩

end Plan

end GraphStore
