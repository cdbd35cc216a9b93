import GraphStore.Proofs.Key.IndexKeys
import GraphStore.Proofs.Outcome
import GraphStore.Proofs.Storage.Partition
import GraphStore.Query.Lookup

/-!
# What lookups find in an index

However the hints narrow a scan down, it finds stored keys of its index, each with the entity that
is written in it. The scans of a plan read indexes that are registered for the plan's space.
-/

namespace GraphStore

namespace Node

variable {node : Node} {space : SpaceId} {part : PartId} {key raw : Bytes} {entries : List Entry}

/-- What is read comes from a partition that is there. -/
theorem of_reading_read {α : Type} {f : Partition → α} {found : α}
    (h : node.reading part (node.store.read ⟨space, part⟩ f) = .ok found) :
    ∃ p, node.store.parts[(⟨space, part⟩ : Address)]? = some p ∧ f p = found := by
  unfold reading Store.read at h
  split at h
  · cases h
  · cases hp : node.store.parts[(⟨space, part⟩ : Address)]? with
    | none =>
      rw [hp] at h
      cases h
    | some p =>
      rw [hp] at h
      exact ⟨p, rfl, Except.ok.inj h⟩

/-- What is found in a range is stored there. -/
theorem mem_range {start stop : Bytes} (h : node.range space part start stop = .ok entries)
    (hmem : (key, raw) ∈ entries) : ∃ p, node.store.parts[(⟨space, part⟩ : Address)]? = some p ∧
      p[key]? = some raw ∧ Partition.within start stop key = true := by
  have hread : node.reading part (node.store.read ⟨space, part⟩ (·.range start stop)) =
      .ok entries := by
    unfold range reading Store.range at h
    unfold reading
    split at h
    · cases h
    · next hup =>
      rw [if_neg hup]
      split at h
      · cases h
        cases hmem
      · exact h
  obtain ⟨p, hp, rfl⟩ := of_reading_read hread
  obtain ⟨hraw, hwithin⟩ := Partition.mem_range.1 hmem
  exact ⟨p, hp, hraw, hwithin⟩

end Node

/-- The stem of a scan has the leading values behind that of its index. -/
theorem IndexLayout.scanStem_eq_ok {layout : IndexLayout} {part : PartId} {leading : List Value}
    {stem : Bytes} (h : layout.scanStem part leading = .ok stem) :
    ∃ lead, encodeLeading layout.index.columns leading = .ok lead ∧
      stem = Key.indexStem part layout.index.id ++ lead := by
  unfold scanStem at h
  split at h
  · cases h
  · obtain ⟨lead, hlead, h⟩ := bind_eq_ok.1 h
    cases h
    exact ⟨lead, hlead, rfl⟩

namespace QueryScope

variable {scope : QueryScope} {part : PartId} {layout : IndexLayout} {hints : List ColumnHint}

/-- What is read from an index is stored under the stem of the index. -/
theorem mem_readIndex {entries : List Entry} (h : scope.readIndex part layout hints = .ok entries)
    {key raw : Bytes} (hmem : (key, raw) ∈ entries) :
    ∃ p, scope.node.store.parts[(⟨scope.space, part⟩ : Address)]? = some p ∧ p[key]? = some raw ∧
      Key.indexStem part layout.index.id <+: key := by
  obtain ⟨stem, hstem, h⟩ := bind_eq_ok.1 h
  obtain ⟨values, -, rfl⟩ := IndexLayout.scanStem_eq_ok hstem
  -- It is enough to begin with the stem of the scan.
  have hindex (hstart : Key.indexStem part layout.index.id ++ values <+: key) :
      Key.indexStem part layout.index.id <+: key := (List.prefix_append _ _).trans hstart
  split at h
  · obtain ⟨p, hp, rfl⟩ := Node.of_reading_read (mapError_eq_ok.1 h)
    obtain ⟨hraw, hstart⟩ := Partition.mem_scan.1 hmem
    exact ⟨p, hp, hraw, hindex hstart⟩
  · next low high _ =>
    dsimp only at h
    split at h
    case h_2 => cases h
    obtain ⟨column, -, h⟩ := bind_eq_ok.1 h
    obtain ⟨low, -, h⟩ := bind_eq_ok.1 h
    split at h
    · obtain ⟨p, hp, hraw, hwithin⟩ := Node.mem_range (mapError_eq_ok.1 h) hmem
      refine ⟨p, hp, hraw, hindex ?_⟩
      have hbyte := IndexLayout.exists_ne_of_indexStem part layout.index.id values
      exact Partition.prefix_of_within_upperBound hbyte hwithin
    · obtain ⟨high, -, h⟩ := bind_eq_ok.1 h
      obtain ⟨p, hp, hraw, hwithin⟩ := Node.mem_range (mapError_eq_ok.1 h) hmem
      exact ⟨p, hp, hraw, hindex (Partition.prefix_of_within hwithin)⟩

/-- A hit is a stored key of the index that is scanned, with the entity that is written in it. -/
theorem mem_scan {hits : List Candidate} (h : scope.scan part layout hints = .ok hits)
    {hit : Candidate} (hhit : hit ∈ hits) :
    ∃ p, scope.node.store.parts[(⟨scope.space, part⟩ : Address)]? = some p ∧ hit.key ∈ p ∧
      Key.indexStem part layout.index.id <+: hit.key ∧
      layout.decodeKey hit.key = .ok (hit.indexValues, hit.entity) := by
  obtain ⟨entries, hentries, h⟩ := bind_eq_ok.1 h
  obtain ⟨all, hall, h⟩ := bind_eq_ok.1 h
  cases h
  obtain ⟨⟨key, raw⟩, hmem, hmade⟩ :=
    exists_of_forall₂_right (mapM_eq_ok.1 hall) (List.mem_filter.1 hhit).1
  obtain ⟨⟨values, entity⟩, hdecode, hmade⟩ := bind_eq_ok.1 hmade
  cases hmade
  obtain ⟨p, hp, hraw, hstart⟩ := mem_readIndex hentries hmem
  exact ⟨p, hp, Partition.mem_iff_getElem?.2 ⟨raw, hraw⟩, hstart, hdecode⟩

end QueryScope

/-- Whether an operator, if it is a scan, reads an index registered for the space. -/
def Operator.Known (catalog : Catalog) (space : SpaceId) (vidLen : Nat) : Operator → Prop
  | scan layout _ => layout.vidLen = vidLen ∧
    ∃ id : IndexId, (catalog.entry space).indexes[id]? = some layout.index
  | _ => True

namespace Plan

variable {catalog : Catalog} {space : SpaceId} {vidLen : Nat} {plan extended : Plan}

/-- Whether all scans of a plan read indexes registered for the space. -/
def Known (catalog : Catalog) (space : SpaceId) (vidLen : Nat) (plan : Plan) : Prop :=
  ∀ node ∈ plan.nodes, node.operator.Known catalog space vidLen

/-- Adding a known operator leaves all known. -/
theorem Known.addNode (h : plan.Known catalog space vidLen) {operator : Operator}
    (hoperator : operator.Known catalog space vidLen) {deps : List Nat} {id : Nat}
    (hadd : plan.addNode operator deps = .ok (extended, id)) :
    extended.Known catalog space vidLen := by
  unfold Plan.addNode at hadd
  split at hadd
  · cases hadd
  · cases hadd
    intro node hnode
    rcases List.mem_append.1 hnode with hnode | hnode
    · exact h node hnode
    · rw [List.mem_singleton.1 hnode]
      exact hoperator

/-- Adding a chain of known operators leaves all known. -/
theorem Known.addChain (h : plan.Known catalog space vidLen) {operators : List Operator}
    (hoperators : ∀ operator ∈ operators, operator.Known catalog space vidLen) {tail id : Nat}
    (hadd : Branch.addChain plan tail operators = .ok (extended, id)) :
    extended.Known catalog space vidLen := by
  induction operators generalizing plan tail with
  | nil =>
    cases hadd
    exact h
  | cons operator operators ih =>
    obtain ⟨⟨next, tail⟩, hnext, hadd⟩ := bind_eq_ok.1 hadd
    exact ih (h.addNode (hoperators operator List.mem_cons_self) hnext)
      (fun other hother => hoperators other (List.mem_cons_of_mem _ hother)) hadd

/-- The branch of a query scans an index registered for the space. -/
theorem known_of_branch {query : IndexQuery} {owner : SchemaRef} {columns : List String}
    {branch : Branch} (h : query.branch catalog space vidLen owner columns = .ok branch) :
    (Operator.scan branch.layout branch.hints).Known catalog space vidLen := by
  obtain ⟨index, hindex, h⟩ := bind_eq_ok.1 h
  dsimp only at h
  split at h
  · cases h
  obtain ⟨condition, -, h⟩ := bind_eq_ok.1 h
  obtain ⟨schema, -, h⟩ := bind_eq_ok.1 h
  cases h
  refine ⟨rfl, query.index, ?_⟩
  unfold IndexQuery.resolve at hindex
  split at hindex
  · cases hindex
  · next found hfound =>
    split at hindex
    case isFalse => cases hindex
    cases hindex
    unfold Catalog.index at hfound
    split at hfound
    · cases hfound
    · next stored hstored =>
      split at hfound
      · cases hfound
        exact hstored
      · cases hfound

/-- Adding a branch leaves all scans known. -/
theorem Known.addTo (h : plan.Known catalog space vidLen) {branch : Branch}
    (hbranch : (Operator.scan branch.layout branch.hints).Known catalog space vidLen) {id : Nat}
    (hadd : branch.addTo plan = .ok (extended, id)) : extended.Known catalog space vidLen := by
  obtain ⟨⟨next, tail⟩, hnext, hadd⟩ := bind_eq_ok.1 hadd
  refine (h.addNode hbranch hnext).addChain (fun operator hoperator => ?_) hadd
  -- A branch scans nothing after its first operator.
  simp only [Branch.followers, List.mem_append, Option.mem_toList, Option.map_eq_some_iff,
    List.mem_singleton] at hoperator
  obtain (⟨schema, -, rfl⟩ | ⟨condition, -, rfl⟩) | rfl := hoperator <;> trivial

/-- Adding the branches of queries leaves all scans known. -/
theorem Known.addBranches (h : plan.Known catalog space vidLen) {owner : SchemaRef}
    {columns : List String} {queries : List IndexQuery} {outputs : List Nat}
    (hadd : plan.addBranches catalog space vidLen owner columns queries = .ok (extended, outputs)) :
    extended.Known catalog space vidLen := by
  induction queries generalizing plan extended outputs with
  | nil =>
    cases hadd
    exact h
  | cons query queries ih =>
    obtain ⟨branch, hbranch, hadd⟩ := bind_eq_ok.1 hadd
    obtain ⟨⟨next, output⟩, hnext, hadd⟩ := bind_eq_ok.1 hadd
    obtain ⟨⟨last, others⟩, hlast, hadd⟩ := bind_eq_ok.1 hadd
    cases hadd
    exact ih (h.addTo (known_of_branch hbranch) hnext) hlast

/-- The plan of a lookup scans indexes registered for its space. -/
theorem known_of_build {indices : IndexSpec} {columns : List String}
    (h : build catalog space vidLen indices columns = .ok plan) :
    plan.Known catalog space vidLen := by
  unfold build at h
  split at h
  · cases h
  obtain ⟨⟨branches, outputs⟩, hbranches, h⟩ := bind_eq_ok.1 h
  obtain ⟨⟨all, last⟩, hall, h⟩ := bind_eq_ok.1 h
  cases h
  have hempty : (Plan.new (resultColumns indices.isEdge columns)).Known catalog space vidLen :=
    nofun
  have haggregate : Operator.aggregate.Known catalog space vidLen := trivial
  exact (hempty.addBranches hbranches).addNode haggregate hall

end Plan

namespace Lookup

variable {req : Lookup} {node : Node} {vidLen : Nat} {plan : Plan} {code : ErrorCode}

/-- A lookup that has a plan is of a space with a width for vertex ids, and its plan is the one
built for its queries. -/
theorem plan_eq_ok : req.plan node = .ok (vidLen, plan) ↔
    node.catalog.vidLen req.space = .ok vidLen ∧
      Plan.build node.catalog req.space vidLen req.indices req.returnColumns = .ok plan := by
  unfold Lookup.plan
  cases node.catalog.vidLen req.space with
  | error fault =>
    constructor
    · exact nofun
    · exact fun h => nomatch h.1
  | ok width =>
    simp only [pure_bind, bind_eq_ok]
    constructor
    · rintro ⟨built, hbuilt, heq⟩
      cases heq
      exact ⟨rfl, hbuilt⟩
    · rintro ⟨heq, hbuilt⟩
      cases heq
      exact ⟨plan, hbuilt, rfl⟩

end Lookup

end GraphStore
