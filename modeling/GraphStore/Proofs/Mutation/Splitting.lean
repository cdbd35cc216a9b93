import GraphStore.Mutation.Chain
import GraphStore.Proofs.Fanout.Units
import GraphStore.Proofs.Mutation.Refusals
import GraphStore.Proofs.Outcome

/-!
# Splitting edges into chains

A partition whose edges can all be prepared has one chain to each partition in which some of its
edges end, and every edge is in the chain to its destination. A partition with an edge that cannot
be prepared has no chain, and fails as the first such edge does.
-/

namespace GraphStore

namespace EdgeContext

variable {context : EdgeContext} {req : AddEdges} {layout : SpaceLayout} {part : PartId}
  {edge : NewEdge} {edges : List NewEdge} {made : ReadyEdge} {code : ErrorCode}

/-- What an edge becomes: the partition of its destination, its row under its key, and nothing under
each of its index keys. -/
inductive Makes (context : EdgeContext) (req : AddEdges) (layout : SpaceLayout) (part : PartId)
    (edge : NewEdge) : ReadyEdge → Prop where
  | intro {target : PartId} {schema : Schema} {raw key : Bytes} {keys : List Bytes}
      (htarget : context.placement.locate req.space edge.key.dst = .ok target)
      (hschema : context.schema? req.space edge.key.edgeType = some schema)
      (hraw : context.encode schema req.propNames edge.props = .ok raw)
      (hkey : Key.edge layout.vidLen part edge.key = .ok key)
      (hkeys : Index.entryKeys layout.vidLen part (.edge edge.key.edgeType) (.edge edge.key)
        (Props.ofGiven schema req.propNames edge.props) layout.indexes = .ok keys) :
      Makes context req layout part edge
        { target, row := (key, raw), indexEntries := keys.map fun key => (key, []) }

/-- Why an edge cannot be prepared: the first of its parts that cannot be made, and the code for
it. -/
inductive Refuses (context : EdgeContext) (req : AddEdges) (layout : SpaceLayout) (part : PartId)
    (edge : NewEdge) : ErrorCode → Prop where
  | unplaced {fault : PlacementFault}
      (htarget : context.placement.locate req.space edge.key.dst = .error fault) :
      Refuses context req layout part edge .spaceNotFound
  | untyped {target : PartId}
      (htarget : context.placement.locate req.space edge.key.dst = .ok target)
      (hschema : context.schema? req.space edge.key.edgeType = none) :
      Refuses context req layout part edge .spaceNotFound
  | unfit {target : PartId} {schema : Schema} {fault : RowFault}
      (htarget : context.placement.locate req.space edge.key.dst = .ok target)
      (hschema : context.schema? req.space edge.key.edgeType = some schema)
      (hraw : context.encode schema req.propNames edge.props = .error fault) :
      Refuses context req layout part edge .dataTypeMismatch
  | unkeyed {target : PartId} {schema : Schema} {raw : Bytes} {code : ErrorCode}
      (htarget : context.placement.locate req.space edge.key.dst = .ok target)
      (hschema : context.schema? req.space edge.key.edgeType = some schema)
      (hraw : context.encode schema req.propNames edge.props = .ok raw)
      (hkey : Key.edge layout.vidLen part edge.key = .error code) :
      Refuses context req layout part edge code
  | unindexed {target : PartId} {schema : Schema} {raw key : Bytes} {code : ErrorCode}
      (htarget : context.placement.locate req.space edge.key.dst = .ok target)
      (hschema : context.schema? req.space edge.key.edgeType = some schema)
      (hraw : context.encode schema req.propNames edge.props = .ok raw)
      (hkey : Key.edge layout.vidLen part edge.key = .ok key)
      (hkeys : Index.entryKeys layout.vidLen part (.edge edge.key.edgeType) (.edge edge.key)
        (Props.ofGiven schema req.propNames edge.props) layout.indexes = .error code) :
      Refuses context req layout part edge code

section Parts

variable {space : SpaceId} {dst : VertexId} {target : PartId} {edgeType : EdgeType}
  {found : Schema} {names : List String} {props : List Value} {raw : Bytes}

/-- A destination has the partition in which it is placed. -/
theorem target_eq_ok : context.target space dst = .ok target ↔
    context.placement.locate space dst = .ok target :=
  mapError_eq_ok

/-- A destination without a partition fails. -/
theorem target_eq_error : context.target space dst = .error code ↔
    ∃ fault, context.placement.locate space dst = .error fault ∧ .spaceNotFound = code :=
  mapError_eq_error

/-- An edge type has the schema that is known of it. -/
theorem schema_eq_ok : context.schema space edgeType = .ok found ↔
    context.schema? space edgeType = some found := by
  unfold schema
  cases context.schema? space edgeType <;> simp

/-- An edge type without a schema fails. -/
theorem schema_eq_error : context.schema space edgeType = .error code ↔
    context.schema? space edgeType = none ∧ .spaceNotFound = code := by
  unfold schema
  cases context.schema? space edgeType <;> simp

/-- A row is stored as it is encoded. -/
theorem row_eq_ok : context.row found names props = .ok raw ↔
    context.encode found names props = .ok raw :=
  mapError_eq_ok

/-- A row that cannot be encoded fails. -/
theorem row_eq_error : context.row found names props = .error code ↔
    ∃ fault, context.encode found names props = .error fault ∧ .dataTypeMismatch = code :=
  mapError_eq_error

end Parts

/-- An edge is made ready when all of its parts can be made. -/
theorem readyEdge_eq_ok :
    context.readyEdge req layout part edge = .ok made ↔ context.Makes req layout part edge made := by
  constructor
  · intro h
    obtain ⟨target, htarget, h⟩ := bind_eq_ok.1 h
    obtain ⟨schema, hschema, h⟩ := bind_eq_ok.1 h
    obtain ⟨raw, hraw, h⟩ := bind_eq_ok.1 h
    obtain ⟨key, hkey, h⟩ := bind_eq_ok.1 h
    obtain ⟨keys, hkeys, h⟩ := bind_eq_ok.1 h
    cases h
    exact .intro (target_eq_ok.1 htarget) (schema_eq_ok.1 hschema) (row_eq_ok.1 hraw) hkey hkeys
  · rintro ⟨htarget, hschema, hraw, hkey, hkeys⟩
    exact bind_eq_ok.2 ⟨_, target_eq_ok.2 htarget, bind_eq_ok.2 ⟨_, schema_eq_ok.2 hschema,
      bind_eq_ok.2 ⟨_, row_eq_ok.2 hraw, bind_eq_ok.2 ⟨_, hkey, bind_eq_ok.2 ⟨_, hkeys, rfl⟩⟩⟩⟩⟩

/-- An edge fails with the first of its parts that cannot be made. -/
theorem readyEdge_eq_error : context.readyEdge req layout part edge = .error code ↔
    context.Refuses req layout part edge code := by
  constructor
  · -- The parts are taken off in the order in which they are made; the first that fails is told.
    intro h
    rcases bind_eq_error.1 h with htarget | ⟨target, htarget, h⟩
    · obtain ⟨fault, hfault, rfl⟩ := target_eq_error.1 htarget
      exact .unplaced hfault
    rcases bind_eq_error.1 h with hschema | ⟨schema, hschema, h⟩
    · obtain ⟨hnone, rfl⟩ := schema_eq_error.1 hschema
      exact .untyped (target_eq_ok.1 htarget) hnone
    rcases bind_eq_error.1 h with hraw | ⟨raw, hraw, h⟩
    · obtain ⟨fault, hfault, rfl⟩ := row_eq_error.1 hraw
      exact .unfit (target_eq_ok.1 htarget) (schema_eq_ok.1 hschema) hfault
    rcases bind_eq_error.1 h with hkey | ⟨key, hkey, h⟩
    · exact .unkeyed (target_eq_ok.1 htarget) (schema_eq_ok.1 hschema) (row_eq_ok.1 hraw) hkey
    rcases bind_eq_error.1 h with hkeys | ⟨keys, -, h⟩
    · exact .unindexed (target_eq_ok.1 htarget) (schema_eq_ok.1 hschema) (row_eq_ok.1 hraw) hkey
        hkeys
    · cases h
  · intro h
    refine bind_eq_error.2 ?_
    cases h with
    | unplaced htarget => exact .inl (target_eq_error.2 ⟨_, htarget, rfl⟩)
    | untyped htarget hschema =>
      exact .inr ⟨_, target_eq_ok.2 htarget,
        bind_eq_error.2 (.inl (schema_eq_error.2 ⟨hschema, rfl⟩))⟩
    | unfit htarget hschema hraw =>
      exact .inr ⟨_, target_eq_ok.2 htarget, bind_eq_error.2 (.inr ⟨_, schema_eq_ok.2 hschema,
        bind_eq_error.2 (.inl (row_eq_error.2 ⟨_, hraw, rfl⟩))⟩)⟩
    | unkeyed htarget hschema hraw hkey =>
      exact .inr ⟨_, target_eq_ok.2 htarget, bind_eq_error.2 (.inr ⟨_, schema_eq_ok.2 hschema,
        bind_eq_error.2 (.inr ⟨_, row_eq_ok.2 hraw, bind_eq_error.2 (.inl hkey)⟩)⟩)⟩
    | unindexed htarget hschema hraw hkey hkeys =>
      exact .inr ⟨_, target_eq_ok.2 htarget, bind_eq_error.2 (.inr ⟨_, schema_eq_ok.2 hschema,
        bind_eq_error.2 (.inr ⟨_, row_eq_ok.2 hraw, bind_eq_error.2 (.inr ⟨_, hkey,
          bind_eq_error.2 (.inl hkeys)⟩)⟩)⟩)⟩

/-- Edges are staged when all of them are made ready. -/
theorem stage_eq_ok {staged : PartMap Staged} :
    context.stage req layout part edges = .ok staged ↔ ∃ ready,
      List.Forall₂ (context.Makes req layout part) edges ready ∧ staged = Staged.ofEdges ready := by
  have hmakes : (fun edge made => context.readyEdge req layout part edge = .ok made) =
      context.Makes req layout part :=
    funext fun _ => funext fun _ => propext readyEdge_eq_ok
  rw [← hmakes]
  exact mapM_pure_eq_ok

/-- Edges are not staged when one of them cannot be prepared, and fail as the first such edge
does. -/
theorem stage_eq_error : context.stage req layout part edges = .error code ↔
    ∃ before edge after, edges = before ++ edge :: after ∧
      (∀ other ∈ before, ∃ made, context.Makes req layout part other made) ∧
      context.Refuses req layout part edge code := by
  simp only [← readyEdge_eq_ok, ← readyEdge_eq_error]
  rw [← mapM_eq_error]
  exact ⟨fun h => (bind_eq_error.1 h).resolve_right nofun, fun h => bind_eq_error.2 (.inl h)⟩

/-- Edges that cannot be prepared do not fail with a success. -/
theorem Refuses.truthful {α : Type} (h : context.Refuses req layout part edge code) :
    Truthful (.error code : Except ErrorCode α) := by
  cases h with
  | unplaced | untyped | unfit => exact ⟨nofun, nofun⟩
  | unkeyed _ _ _ hkey => exact (hkey ▸ Key.edge_truthful layout.vidLen part edge.key).passOn
  | unindexed _ _ _ _ hkeys => exact (hkeys ▸ Index.entryKeys_truthful ..).passOn

/-- Staging edges calls no failure a success. -/
theorem stage_truthful (context : EdgeContext) (req : AddEdges) (layout : SpaceLayout)
    (part : PartId) (edges : List NewEdge) : Truthful (context.stage req layout part edges) := by
  cases hstage : context.stage req layout part edges with
  | ok staged => exact .ok _
  | error code =>
    obtain ⟨-, edge, -, -, -, hrefused⟩ := stage_eq_error.1 hstage
    exact hrefused.truthful

end EdgeContext

namespace Staged

/-- The chain of a group of edges. -/
def ofGroup (edges : List ReadyEdge) : Staged where
  rows := edges.map (·.row)
  indexEntries := edges.flatMap (·.indexEntries)

/-- Each destination has the chain of the edges that end there, if there are any. -/
theorem getElem?_ofEdges (edges : List ReadyEdge) (target : PartId) :
    (ofEdges edges)[target]? =
      if edges.filter (·.target = target) = [] then none
      else some (ofGroup (edges.filter (·.target = target))) := by
  induction edges with
  | nil => rfl
  | cons edge edges ih =>
    have hstep : ofEdges (edge :: edges) = (ofEdges edges).insert edge.target
        ((((ofEdges edges)[edge.target]?).getD {}).cons edge) := rfl
    rw [hstep, Std.ExtTreeMap.getElem?_insert]
    by_cases htarget : edge.target = target
    · subst htarget
      have hfilter : (edge :: edges).filter (·.target = edge.target) =
          edge :: edges.filter (·.target = edge.target) := by
        simp
      rw [if_pos (Std.LawfulEqCmp.compare_eq_iff_eq.2 rfl), hfilter,
        if_neg (List.cons_ne_nil _ _), ih]
      split
      · next hnone =>
        rw [hnone]
        rfl
      · rfl
    · have hne : compare edge.target target ≠ .eq := fun h =>
        htarget (Std.LawfulEqCmp.compare_eq_iff_eq.1 h)
      have hfilter : (edge :: edges).filter (·.target = target) =
          edges.filter (·.target = target) := by
        simp [htarget]
      rw [if_neg hne, hfilter, ih]

end Staged

namespace AddEdges

variable {part : PartId}

/-- The chains of a partition are those of the groups of its edges. -/
theorem mem_chainsOf {ready : List ReadyEdge} {chain : ChainBatch} :
    chain ∈ chainsOf part (Staged.ofEdges ready) ↔
      chain.chain.source = part ∧ ready.filter (·.target = chain.chain.target) ≠ [] ∧
        chain.batch = (Staged.ofGroup (ready.filter (·.target = chain.chain.target))).batch := by
  obtain ⟨⟨source, target⟩, batch⟩ := chain
  rw [chainsOf, List.mem_map]
  dsimp only
  constructor
  · rintro ⟨⟨found, staged⟩, hmem, heq⟩
    obtain ⟨hchain, rfl⟩ := ChainBatch.mk.inj heq
    obtain ⟨rfl, rfl⟩ := ChainId.mk.inj hchain
    have hget := Std.ExtTreeMap.mem_toList_iff_getElem?_eq_some.1 hmem
    rw [Staged.getElem?_ofEdges] at hget
    split at hget
    · cases hget
    · next hne => exact ⟨rfl, hne, by rw [Option.some.inj hget]⟩
  · rintro ⟨hsource, hne, hbatch⟩
    have hget := Staged.getElem?_ofEdges ready target
    rw [if_neg hne] at hget
    rw [hsource, hbatch]
    exact ⟨_, Std.ExtTreeMap.mem_toList_iff_getElem?_eq_some.2 hget, rfl⟩

end AddEdges

namespace EdgeContext

variable {context : EdgeContext} {req : AddEdges} {layout : SpaceLayout} {part : PartId}
  {edges : List NewEdge} {staged : PartMap Staged} {chain : ChainBatch} {code : ErrorCode}

/-- The chains of one entry of a request; none if it fails. -/
def chainsFor (context : EdgeContext) (req : AddEdges) (layout : SpaceLayout)
    (entry : PartId × List NewEdge) : List ChainBatch :=
  match context.stage req layout entry.1 entry.2 with
  | .ok staged => AddEdges.chainsOf entry.1 staged
  | .error _ => []

/-- The failure of one entry of a request, if it fails. -/
def failureOf (context : EdgeContext) (req : AddEdges) (layout : SpaceLayout)
    (entry : PartId × List NewEdge) : List (PartId × ErrorCode) :=
  match context.stage req layout entry.1 entry.2 with
  | .ok _ => []
  | .error code => [(entry.1, code)]

/-- An entry whose edges are staged has their chains. -/
theorem chainsFor_of_ok (hstage : context.stage req layout part edges = .ok staged) :
    context.chainsFor req layout (part, edges) = AddEdges.chainsOf part staged := by
  rw [chainsFor, hstage]

/-- An entry that fails has no chains. -/
theorem chainsFor_of_error (hstage : context.stage req layout part edges = .error code) :
    context.chainsFor req layout (part, edges) = [] := by
  rw [chainsFor, hstage]

/-- The chains of an entry are those of its staged edges. -/
theorem mem_chainsFor {entry : PartId × List NewEdge} : chain ∈ context.chainsFor req layout entry ↔
    ∃ staged, context.stage req layout entry.1 entry.2 = .ok staged ∧
      chain ∈ AddEdges.chainsOf entry.1 staged := by
  rw [chainsFor]
  cases context.stage req layout entry.1 entry.2 <;> simp

/-- The failure of an entry is that of its edges. -/
theorem mem_failureOf {entry : PartId × List NewEdge} {failure : PartId × ErrorCode} :
    failure ∈ context.failureOf req layout entry ↔
      failure.1 = entry.1 ∧ context.stage req layout entry.1 entry.2 = .error failure.2 := by
  obtain ⟨other, code⟩ := failure
  rw [failureOf]
  cases context.stage req layout entry.1 entry.2 <;> simp [eq_comm]

/-- A split has the chains and the failures of every entry. -/
theorem split_eq (context : EdgeContext) (req : AddEdges) (layout : SpaceLayout) :
    context.split req layout = {
      chains := req.parts.toList.flatMap (context.chainsFor req layout)
      failed := req.parts.toList.flatMap (context.failureOf req layout) } := by
  rw [split]
  induction req.parts.toList with
  | nil => rfl
  | cons entry entries ih =>
    rw [List.foldr_cons, ih, List.flatMap_cons, List.flatMap_cons]
    simp only [splitPart, chainsFor, failureOf]
    cases context.stage req layout entry.1 entry.2 <;> rfl

/-- The chains of an entry begin in its partition. -/
theorem source_of_mem_chainsFor {entry : PartId × List NewEdge}
    (h : chain ∈ context.chainsFor req layout entry) : chain.chain.source = entry.1 := by
  obtain ⟨staged, -, hchain⟩ := mem_chainsFor.1 h
  obtain ⟨⟨target, group⟩, -, rfl⟩ := List.mem_map.1 hchain
  rfl

/-- The chains of a split that begin in a partition are those of its entry. -/
theorem filter_split_chains (hedges : req.parts[part]? = some edges) :
    (context.split req layout).chains.filter (·.chain.source = part) =
      context.chainsFor req layout (part, edges) := by
  rw [split_eq, List.filter_flatMap, flatMap_eq_of_distinct req.parts.distinct_toList
    (Std.ExtTreeMap.mem_toList_iff_getElem?_eq_some.2 hedges)]
  · apply List.filter_eq_self.2
    exact fun chain hchain => decide_eq_true (source_of_mem_chainsFor hchain)
  · rintro entry - hne
    apply List.filter_eq_nil_iff.2
    intro chain hchain hsource
    exact hne ((source_of_mem_chainsFor hchain).symm.trans (of_decide_eq_true hsource))

/-- A chain of a split is one of its partition's. -/
theorem mem_split_chains : chain ∈ (context.split req layout).chains ↔ ∃ edges staged,
    req.parts[chain.chain.source]? = some edges ∧
      context.stage req layout chain.chain.source edges = .ok staged ∧
      chain ∈ AddEdges.chainsOf chain.chain.source staged := by
  rw [split_eq]
  constructor
  · intro h
    obtain ⟨⟨part, edges⟩, hentry, hchain⟩ := List.mem_flatMap.1 h
    obtain rfl : chain.chain.source = part := source_of_mem_chainsFor hchain
    obtain ⟨staged, hstage, hchain⟩ := mem_chainsFor.1 hchain
    exact ⟨edges, staged, Std.ExtTreeMap.mem_toList_iff_getElem?_eq_some.1 hentry, hstage, hchain⟩
  · rintro ⟨edges, staged, hedges, hstage, hchain⟩
    exact List.mem_flatMap.2 ⟨_, Std.ExtTreeMap.mem_toList_iff_getElem?_eq_some.2 hedges,
      mem_chainsFor.2 ⟨staged, hstage, hchain⟩⟩

/-- A split fails the partitions whose edges cannot be prepared. -/
theorem mem_split_failed : (part, code) ∈ (context.split req layout).failed ↔
    ∃ edges, req.parts[part]? = some edges ∧
      context.stage req layout part edges = .error code := by
  rw [split_eq]
  constructor
  · intro h
    obtain ⟨⟨other, edges⟩, hentry, hfailure⟩ := List.mem_flatMap.1 h
    obtain ⟨rfl, hstage⟩ := mem_failureOf.1 hfailure
    exact ⟨edges, Std.ExtTreeMap.mem_toList_iff_getElem?_eq_some.1 hentry, hstage⟩
  · rintro ⟨edges, hedges, hstage⟩
    exact List.mem_flatMap.2 ⟨_, Std.ExtTreeMap.mem_toList_iff_getElem?_eq_some.2 hedges,
      mem_failureOf.2 ⟨rfl, hstage⟩⟩

/-- A requested partition fails as its edges do. -/
theorem mem_split_failed_of (hedges : req.parts[part]? = some edges) :
    (part, code) ∈ (context.split req layout).failed ↔
      context.stage req layout part edges = .error code := by
  refine mem_split_failed.trans ⟨?_, fun hstage => ⟨edges, hedges, hstage⟩⟩
  rintro ⟨others, hothers, hstage⟩
  obtain rfl : edges = others := Option.some.inj (hedges.symm.trans hothers)
  exact hstage

end EdgeContext

end GraphStore
