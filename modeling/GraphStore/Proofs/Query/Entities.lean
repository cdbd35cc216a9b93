import GraphStore.Proofs.Query.FilterSources
import GraphStore.Proofs.Query.Merge
import GraphStore.Proofs.Run.Transparency

/-!
# Which entities a lookup finds

The columns asked for decide whether a lookup joins its hits with their rows. A join loses no hit
where no index entry is stale, but a filter behind it reads the row and no longer the index key. So
a lookup finds the same entities whatever columns are asked for, if it joins for all of them or for
none, or if all that its filters read reads alike in both places.
-/

namespace GraphStore

/-- The entity columns of rows. -/
def entityColumns (isEdge : Bool) (rows : List Row) : List Row :=
  rows.map (·.take (resultColumns isEdge []).length)

namespace Branch

variable {scope : QueryScope} {part : PartId} {branch other : Branch} {hits : List Candidate}
  {isEdge : Bool}

/-- A hit as the branch's filter sees it: with the properties of its row, if the branch joins. -/
def shown (scope : QueryScope) (part : PartId) (branch : Branch) (hit : Candidate) : Candidate :=
  match branch.schema with
  | none => hit
  | some schema => { hit with props := scope.props? part schema hit.entity }

/-- Whether the branch's filter keeps a hit. -/
def passes (scope : QueryScope) (part : PartId) (branch : Branch) (hit : Candidate) : Bool :=
  branch.condition.all fun condition =>
    condition.holds ((branch.shown scope part hit).filterValue? branch.source)

/-- A hit is shown with its entity. -/
theorem entity_shown (branch : Branch) (hit : Candidate) :
    (branch.shown scope part hit).entity = hit.entity := by
  unfold shown
  cases branch.schema <;> rfl

/-- Where hits belong to rows, a branch finds the entities of those that pass its filter. -/
theorem entityColumns_evaluate (hscan : scope.scan part branch.layout branch.hints = .ok hits)
    (hkind : ∀ hit ∈ hits, hit.entity.isEdge = isEdge)
    (hbacks : ∀ schema, branch.schema = some schema → ∀ hit ∈ hits,
      ∃ props, scope.Backs part branch.layout schema props hit) :
    (branch.evaluate scope part none).2.map (entityColumns isEdge) =
      .ok ((hits.filter (branch.passes scope part)).map (·.entity.columns)) := by
  have hjoined : branch.joinRows scope part none hits =
      (none, .ok (hits.map (branch.shown scope part))) := by
    unfold joinRows shown
    cases hschema : branch.schema with
    | none => rw [List.map_id']
    | some schema => exact QueryScope.join_of_backs (hbacks schema hschema)
  have hkept : branch.kept (hits.map (branch.shown scope part)) =
      (hits.filter (branch.passes scope part)).map (branch.shown scope part) := by
    unfold kept passes
    cases branch.condition with
    | none => simp
    | some condition => exact List.filter_map
  rw [evaluate, hscan]
  simp only [hjoined]
  rw [Except.map, Except.map, resultRows, hkept, entityColumns, List.map_map, List.map_map]
  refine congrArg Except.ok (List.map_congr_left fun hit hhit => ?_)
  have hcolumns := Entity.take_columns hit.entity
    (branch.returnColumns.map ((branch.shown scope part hit).outputValue branch.layout))
  rw [hkind hit (List.mem_of_mem_filter hhit)] at hcolumns
  rw [Function.comp_apply, Function.comp_apply, Candidate.output, entity_shown]
  exact hcolumns

/-- A name that reads alike has the same value in the branch's filter as in the index key. -/
theorem shown_filterValue? {name : String} {stored : Props → Prop} {schema : Schema} {props : Props}
    {hit : Candidate} (hschema : branch.schema = none ∨ branch.schema = some schema)
    (hbacks : scope.Backs part branch.layout schema props hit) (hkind : hit.entity.isEdge = isEdge)
    (hstored : stored props)
    (halike : branch.layout.index.ReadsAlike isEdge (some schema) stored name) :
    ((branch.shown scope part hit).filterValue? branch.source name).getD .null =
      (hit.filterValue? (.indexKey branch.layout) name).getD .null := by
  rcases hschema with hnone | hsome
  · rw [shown, source, hnone]
    rfl
  · rw [shown, source, hsome]
    dsimp only
    rw [hbacks.props?_eq]
    exact (hbacks.filterValue?_getD hkind hstored halike).symm

end Branch

/-- Whether a query finds the same entities for two lists of columns: it joins for both lists or for
neither, or all names that its filter reads read alike. -/
inductive IndexQuery.Indifferent (query : IndexQuery) (index : Index) (isEdge : Bool)
    (schema? : Option Schema) (stored : Props → Prop) (columns others : List String) : Prop where
  | joins (h : (∀ column ∈ columns, index.covers column = true) ↔
      ∀ column ∈ others, index.covers column = true)
  | filter (h : ∀ condition, Expr.decode? query.filter = some condition →
      ∀ name ∈ condition.names, index.ReadsAlike isEdge schema? stored name)

namespace IndexQuery.Resolves

variable {catalog : Catalog} {space : SpaceId} {vidLen : Nat} {owner : SchemaRef}
  {columns others : List String} {query : IndexQuery} {branch other : Branch}

/-- The branches of a query read the same index. -/
theorem layout_eq (h : query.Resolves catalog space vidLen owner columns branch)
    (h' : query.Resolves catalog space vidLen owner others other) :
    other.layout = branch.layout := by
  have hindex := Option.some.inj (h'.names.1.symm.trans h.names.1)
  have hwidth := h'.vidLen_eq.trans h.vidLen_eq.symm
  cases hlayout : branch.layout with
  | mk index width =>
    cases hother : other.layout with
    | mk index' width' =>
      rw [hlayout, hother] at hindex hwidth
      dsimp only at hindex hwidth
      rw [hindex, hwidth]

/-- The branches of a query filter alike. -/
theorem condition_eq (h : query.Resolves catalog space vidLen owner columns branch)
    (h' : query.Resolves catalog space vidLen owner others other) :
    other.condition = branch.condition := by
  by_cases hfilter : query.filter = []
  · rw [h.unfiltered hfilter, h'.unfiltered hfilter]
  · obtain ⟨condition, hdecode, hcondition⟩ := h.filtered hfilter
    obtain ⟨condition', hdecode', hcondition'⟩ := h'.filtered hfilter
    rw [hcondition, hcondition', ← hdecode, ← hdecode']

/-- A branch joins with the registered schema, if it joins. -/
theorem schema_eq (h : query.Resolves catalog space vidLen owner columns branch) :
    branch.schema = none ∨ branch.schema = catalog.schema? space owner := by
  by_cases hcovered : ∀ column ∈ columns, branch.layout.index.covers column = true
  · exact .inl (h.covered hcovered)
  · obtain ⟨schema, hschema, hjoined⟩ := h.joined (by simpa using hcovered)
    exact .inr (hjoined.trans hschema.symm)

/-- The branches of a query join with the same schema, if both of them join or none does. -/
theorem schema_congr (h : query.Resolves catalog space vidLen owner columns branch)
    (h' : query.Resolves catalog space vidLen owner others other)
    (hjoins : (∀ column ∈ columns, branch.layout.index.covers column = true) ↔
      ∀ column ∈ others, branch.layout.index.covers column = true) :
    other.schema = branch.schema := by
  rw [← h.layout_eq h'] at hjoins
  by_cases hcovered : ∀ column ∈ columns, branch.layout.index.covers column = true
  · have hcovered' := hjoins.1 ((h.layout_eq h').symm ▸ hcovered)
    rw [h.covered hcovered, h'.covered hcovered']
  · have hcovered' := fun hall => hcovered ((h.layout_eq h') ▸ hjoins.2 hall)
    obtain ⟨schema, hschema, hjoined⟩ := h.joined (by simpa using hcovered)
    obtain ⟨schema', hschema', hjoined'⟩ := h'.joined (by simpa using hcovered')
    rw [hjoined, hjoined', ← hschema, ← hschema']

variable {scope : QueryScope} {part : PartId} {isEdge : Bool} {stored : Props → Prop}
  {schema : Schema} {props : Props} {hit : Candidate} {hits : List Candidate}

/-- Where no index entry is stale, every hit of a branch is of the kind looked up and belongs to a
stored row. -/
theorem backs (hregistered : scope.node.catalog.Registered)
    (hfresh : ∀ p, scope.node.store.parts[(⟨scope.space, part⟩ : Address)]? = some p →
      (scope.site part).StaleFree p ∧
      ∀ props, (scope.site part).HasRow p (.of isEdge scope.schemaId) props → stored props)
    (h : query.Resolves scope.node.catalog scope.space scope.vidLen (.of isEdge scope.schemaId)
      columns branch)
    (hscan : scope.scan part branch.layout branch.hints = .ok hits) (hhit : hit ∈ hits) :
    hit.entity.isEdge = isEdge ∧ ∃ schema props,
      scope.node.catalog.schema? scope.space (.of isEdge scope.schemaId) = some schema ∧
        stored props ∧ scope.Backs part branch.layout schema props hit := by
  obtain ⟨hindex, howner⟩ := h.names
  constructor
  · rw [QueryScope.isEdge_of_scan hscan hhit, howner]
    cases isEdge <;> rfl
  · obtain ⟨p, hp, -⟩ := QueryScope.mem_scan hscan hhit
    obtain ⟨hstale, hstored⟩ := hfresh p hp
    obtain ⟨schema, props, hschema, hrow, hbacks⟩ :=
      QueryScope.backs_of_scan hregistered hp hstale h.vidLen_eq hindex howner hscan hhit
    rw [howner] at hschema hrow
    exact ⟨schema, props, hschema, hstored props hrow, hbacks⟩

/-- The branches of a query that is indifferent to the columns asked for keep the same hits, of those
that belong to rows. -/
theorem passes_eq
    (h : query.Resolves scope.node.catalog scope.space scope.vidLen (.of isEdge scope.schemaId)
      columns branch)
    (h' : query.Resolves scope.node.catalog scope.space scope.vidLen (.of isEdge scope.schemaId)
      others other)
    (hquery : query.Indifferent branch.layout.index isEdge
      (scope.node.catalog.schema? scope.space (.of isEdge scope.schemaId)) stored columns others)
    (hkind : hit.entity.isEdge = isEdge)
    (hschema : scope.node.catalog.schema? scope.space (.of isEdge scope.schemaId) = some schema)
    (hstored : stored props) (hrow : scope.Backs part branch.layout schema props hit) :
    other.passes scope part hit = branch.passes scope part hit := by
  have hlayout := h.layout_eq h'
  cases hquery with
  | joins hjoins =>
    simp only [Branch.passes, Branch.shown, Branch.source, h.schema_congr h' hjoins, hlayout,
      h.condition_eq h']
  | filter hfilter =>
    rw [Branch.passes, Branch.passes, h.condition_eq h']
    cases hcondition : branch.condition with
    | none => rfl
    | some condition =>
      have hdecode : Expr.decode? query.filter = some condition := by
        by_cases hempty : query.filter = []
        · cases hcondition.symm.trans (h.unfiltered hempty)
        · obtain ⟨found, hdecode, hfound⟩ := h.filtered hempty
          rw [hdecode, ← hfound, hcondition]
      rw [Option.all_some, Option.all_some, Expr.holds, Expr.holds]
      rw [hschema] at hfilter
      rw [Expr.eval_congr condition fun name hname => ?_]
      have halike := hfilter condition hdecode name hname
      have hjoins := hschema ▸ h.schema_eq
      have hjoins' := hschema ▸ h'.schema_eq
      rw [Branch.shown_filterValue? hjoins hrow hkind hstored halike,
        Branch.shown_filterValue? hjoins' (hlayout ▸ hrow) hkind hstored (hlayout ▸ halike),
        hlayout]

/-- The branches of a query that is indifferent to the columns asked for find the same entities,
where no index entry is stale. -/
theorem entityColumns_evaluate_eq (hregistered : scope.node.catalog.Registered)
    (hfresh : ∀ p, scope.node.store.parts[(⟨scope.space, part⟩ : Address)]? = some p →
      (scope.site part).StaleFree p ∧
      ∀ props, (scope.site part).HasRow p (.of isEdge scope.schemaId) props → stored props)
    (h : query.Resolves scope.node.catalog scope.space scope.vidLen (.of isEdge scope.schemaId)
      columns branch)
    (h' : query.Resolves scope.node.catalog scope.space scope.vidLen (.of isEdge scope.schemaId)
      others other)
    (hquery : query.Indifferent branch.layout.index isEdge
      (scope.node.catalog.schema? scope.space (.of isEdge scope.schemaId)) stored columns others) :
    (other.evaluate scope part none).2.map (entityColumns isEdge) =
      (branch.evaluate scope part none).2.map (entityColumns isEdge) := by
  have hlayout := h.layout_eq h'
  have hscans : scope.scan part other.layout other.hints =
      scope.scan part branch.layout branch.hints := by
    rw [hlayout, h'.hints_eq, h.hints_eq]
  cases hscan : scope.scan part branch.layout branch.hints with
  | error code =>
    rw [Branch.evaluate, Branch.evaluate, hscans, hscan]
  | ok hits =>
    have hrows (hit : Candidate) (hhit : hit ∈ hits) := h.backs hregistered hfresh hscan hhit
    have hkind (hit : Candidate) (hhit : hit ∈ hits) := (hrows hit hhit).1
    have hbacks {found : Branch} (hfound : found.layout = branch.layout)
        (hjoins : found.schema = none ∨
          found.schema = scope.node.catalog.schema? scope.space (.of isEdge scope.schemaId)) :
        ∀ schema, found.schema = some schema → ∀ hit ∈ hits,
          ∃ props, scope.Backs part found.layout schema props hit := by
      intro schema hsome hit hhit
      obtain ⟨-, other, props, hschema, -, hbacks⟩ := hrows hit hhit
      rcases hjoins with hnone | heq
      · cases hnone.symm.trans hsome
      · obtain rfl := Option.some.inj (hsome.symm.trans (heq.trans hschema))
        exact ⟨props, hfound ▸ hbacks⟩
    rw [Branch.entityColumns_evaluate hscan hkind (hbacks rfl h.schema_eq),
      Branch.entityColumns_evaluate (hscans.trans hscan) hkind (hbacks hlayout h'.schema_eq)]
    have hpasses : ∀ hit ∈ hits, other.passes scope part hit = branch.passes scope part hit := by
      intro hit hhit
      obtain ⟨hkind, schema, props, hschema, hstored, hrow⟩ := hrows hit hhit
      exact h.passes_eq h' hquery hkind hschema hstored hrow
    rw [List.filter_congr hpasses]

end IndexQuery.Resolves

/-- Branches that find the same entities each do so together. -/
theorem Branch.entityColumns_evaluateAll {scope : QueryScope} {part : PartId} {isEdge : Bool}
    {branches others : List Branch}
    (h : List.Forall₂ (fun branch other => (other.evaluate scope part none).2.map
      (entityColumns isEdge) = (branch.evaluate scope part none).2.map (entityColumns isEdge))
        branches others) :
    (evaluateAll scope part others none).2.map (entityColumns isEdge) =
      (evaluateAll scope part branches none).2.map (entityColumns isEdge) := by
  have hsplit (rows : List Row) (rest : Except ErrorCode (List Row)) :
      (rest.map (rows ++ ·)).map (entityColumns isEdge) =
        (rest.map (entityColumns isEdge)).map (entityColumns isEdge rows ++ ·) := by
    cases rest with
    | error code => rfl
    | ok rest => exact congrArg Except.ok List.map_append
  induction h with
  | nil => rfl
  | @cons branch other branches others hsame _ ih =>
    obtain ⟨found, hfound, -⟩ := branch.evaluate_none scope part
    obtain ⟨found', hfound', -⟩ := other.evaluate_none scope part
    rw [hfound, hfound'] at hsame
    simp only [evaluateAll, hfound, hfound']
    cases found with
    | error code =>
      cases found' with
      | error code' => exact congrArg Except.error (Except.error.inj hsame)
      | ok rows => cases hsame
    | ok rows =>
      cases found' with
      | error code' => cases hsame
      | ok rows' =>
        have hrows : entityColumns isEdge rows' = entityColumns isEdge rows := Except.ok.inj hsame
        rw [hsplit, hsplit, ih, hrows]

namespace Lookup

variable {req : Lookup} {node : Node} {vidLen width : Nat} {plan other : Plan}
  {columns : List String}

/-- Whether one of the partitions that a lookup looks at stores a row with these properties. -/
def Stored (req : Lookup) (node : Node) (vidLen : Nat) (props : Props) : Prop :=
  ∃ part ∈ req.parts, ∃ p, node.store.parts[(⟨req.space, part⟩ : Address)]? = some p ∧
    Site.HasRow ⟨node.catalog, req.space, vidLen, part⟩ p req.indices.owner props

/-- Whether all queries of a lookup find the same entities for other columns. -/
def Indifferent (req : Lookup) (node : Node) (vidLen : Nat) (columns : List String) : Prop :=
  ∀ query ∈ req.indices.queries, ∀ index,
    query.Names node.catalog req.space req.indices.owner index →
      query.Indifferent index req.indices.isEdge (node.catalog.schema? req.space req.indices.owner)
        (req.Stored node vidLen) req.returnColumns columns

/-- Without a cache a plan comes to what its branches find. -/
theorem outcome_ofBranches (req : Lookup) (node : Node) (vidLen : Nat) (header : List String)
    (branches : List Branch) (part : PartId) :
    req.outcome node vidLen (.ofBranches header branches) part =
      (Branch.evaluateAll (req.scope node vidLen) part branches none).2 := by
  rw [outcome, Plan.go_ofBranches]
  dsimp only
  cases (Branch.evaluateAll (req.scope node vidLen) part branches none).2 <;> rfl

/-- Where no index entry is stale, the plans for lists of columns to which a lookup is indifferent
find the same entities on every partition. -/
theorem entityColumns_outcome (hregistered : node.catalog.Registered)
    (hfresh : ∀ part ∈ req.parts, ∀ p,
      node.store.parts[(⟨req.space, part⟩ : Address)]? = some p →
        Site.StaleFree ⟨node.catalog, req.space, vidLen, part⟩ p)
    (hindifferent : req.Indifferent node vidLen columns)
    (hplan : Plan.build node.catalog req.space vidLen req.indices req.returnColumns = .ok plan)
    (hother : Plan.build node.catalog req.space vidLen req.indices columns = .ok other)
    {part : PartId} (hpart : part ∈ req.parts) :
    (req.outcome node vidLen other part).map (entityColumns req.indices.isEdge) =
      (req.outcome node vidLen plan part).map (entityColumns req.indices.isEdge) := by
  obtain ⟨-, branches, hbranches, rfl⟩ := Plan.build_eq_ok hplan
  obtain ⟨-, others, hothers, rfl⟩ := Plan.build_eq_ok hother
  rw [outcome_ofBranches, outcome_ofBranches]
  have hstored (p : Partition) (hp : node.store.parts[(⟨req.space, part⟩ : Address)]? = some p) :
      Site.StaleFree ⟨node.catalog, req.space, vidLen, part⟩ p ∧ ∀ props,
        Site.HasRow ⟨node.catalog, req.space, vidLen, part⟩ p req.indices.owner props →
          req.Stored node vidLen props :=
    ⟨hfresh part hpart p hp, fun props hrow => ⟨part, hpart, p, hp, hrow⟩⟩
  apply Branch.entityColumns_evaluateAll
  unfold Indifferent at hindifferent
  clear hplan hother
  generalize req.indices.queries = queries at hbranches hothers hindifferent
  induction hbranches generalizing others with
  | nil =>
    cases hothers
    exact .nil
  | @cons query branch queries branches hbranch _ ih =>
    cases hothers with
    | @cons _ found _ rest hfound hrest =>
      have hquery := hindifferent query List.mem_cons_self branch.layout.index hbranch.names
      refine .cons ?_ (ih rest hrest fun query hquery =>
        hindifferent query (List.mem_cons_of_mem _ hquery))
      exact IndexQuery.Resolves.entityColumns_evaluate_eq hregistered hstored hbranch hfound hquery

variable {find found : PartId → Except ErrorCode (List Row)} {order order' : List PartId}

/-- The entity columns of the rows that are kept are the entity columns kept. -/
theorem entityColumns_limited (isEdge : Bool) (bound : Nat)
    (find : PartId → Except ErrorCode (List Row)) (order : List PartId) :
    entityColumns isEdge (limited bound ((keepAll find order).toList.map (·.2)).flatten) =
      limited bound ((keepAll (fun part => (find part).map (entityColumns isEdge))
        order).toList.map (·.2)).flatten := by
  rw [keepAll_map, Std.ExtTreeMap.toList_map, List.map_map, entityColumns, map_limited,
    List.map_flatten, List.map_map]
  rfl

/-- Findings that differ in their rows alone leave the same failures. -/
theorem collectFailures_congr (leader : PartId → Except EngineCode Host)
    (horder : order'.Perm order) {change : List Row → List Row}
    (h : ∀ part ∈ order, (found part).map change = (find part).map change) :
    (collectFailures leader (order'.map (completion found))).Perm
      (collectFailures leader (order.map (completion find))) := by
  have hcompletions : order.map (completion found) = order.map (completion find) :=
    List.map_congr_left fun part hpart => completion_congr (h part hpart)
  have hperm := horder.map (completion found)
  rw [hcompletions] at hperm
  refine Tracker.collectFailures_perm hperm fun a ha b hb hpart => ?_
  obtain ⟨part, -, rfl⟩ := List.mem_map.1 ha
  obtain ⟨other, -, rfl⟩ := List.mem_map.1 hb
  obtain rfl : part = other := hpart
  rfl

end Lookup

namespace Node

variable {node : Node} {req : Lookup} {columns : List String}

/-- A lookup finds the same entities for columns to which it is indifferent, if nothing is cached.
-/
theorem entities_of_uncached (hregistered : node.catalog.Registered) (hcache : node.cache = none)
    {vidLen width : Nat} {plan other : Plan} (hplan : req.plan node = .ok (vidLen, plan))
    (hother : Lookup.plan { req with returnColumns := columns } node = .ok (width, other))
    (hfresh : ∀ part ∈ req.parts, ∀ p,
      node.store.parts[(⟨req.space, part⟩ : Address)]? = some p →
        Site.StaleFree ⟨node.catalog, req.space, vidLen, part⟩ p)
    (hindifferent : req.Indifferent node vidLen columns)
    {order order' : List PartId} (horder : order.Perm req.parts) (horder' : order'.Perm req.parts) :
    let response := (node.lookupInOrder req order).2
    let response' := (node.lookupInOrder { req with returnColumns := columns } order').2
    entityColumns req.indices.isEdge response'.data.rows =
        entityColumns req.indices.isEdge response.data.rows ∧
      response'.result.failed.Perm response.result.failed ∧
      response'.result.requestCode = response.result.requestCode := by
  intro response response'
  obtain ⟨hvidLen, hbuild⟩ := Lookup.plan_eq_ok.1 hplan
  obtain ⟨hwidth, hbuild'⟩ := Lookup.plan_eq_ok.1 hother
  obtain rfl := Except.ok.inj (hvidLen.symm.trans hwidth)
  have hsame (part : PartId) (hpart : part ∈ req.parts) :=
    Lookup.entityColumns_outcome hregistered hfresh hindifferent hbuild hbuild' hpart
  have hanswer : response = _ := congrArg Prod.snd (lookupInOrder_of_plan hcache hplan order)
  have hanswer' : response' = _ := congrArg Prod.snd (lookupInOrder_of_plan hcache hother order')
  have horders : order'.Perm order := horder'.trans horder.symm
  have halike : ∀ part ∈ order, (req.outcome node vidLen other part).map
      (entityColumns req.indices.isEdge) =
        (req.outcome node vidLen plan part).map (entityColumns req.indices.isEdge) :=
    fun part hpart => hsame part (horder.mem_iff.1 hpart)
  rw [hanswer, hanswer']
  refine ⟨?_, Lookup.collectFailures_congr _ horders halike, rfl⟩
  have hkept := Lookup.keepAll_congr (fun part => horders.mem_iff) halike
  rw [Lookup.entityColumns_limited, Lookup.entityColumns_limited]
  exact congrArg (fun found : PartMap (List Row) =>
    Lookup.limited node.config.lookupMaxRows (found.toList.map (·.2)).flatten) hkept

/-- Which entities a lookup finds does not depend on the columns asked for, where no index entry is
stale, if it joins for all of them or for none, or if what its filters read reads alike in index
keys and in rows. It lists the same failures, too. A cache makes no difference if it is coherent. -/
theorem lookup_entities (hregistered : node.catalog.Registered)
    (hcache : node.cache = none ∨ ∃ homes, node.Tracked node.catalog homes)
    {vidLen width : Nat} {plan other : Plan} (hplan : req.plan node = .ok (vidLen, plan))
    (hother : Lookup.plan { req with returnColumns := columns } node = .ok (width, other))
    (hfresh : ∀ part ∈ req.parts, ∀ p,
      node.store.parts[(⟨req.space, part⟩ : Address)]? = some p →
        Site.StaleFree ⟨node.catalog, req.space, vidLen, part⟩ p)
    (hindifferent : req.Indifferent node vidLen columns)
    {order order' : List PartId} (horder : order.Perm req.parts) (horder' : order'.Perm req.parts) :
    let response := (node.lookupInOrder req order).2
    let response' := (node.lookupInOrder { req with returnColumns := columns } order').2
    entityColumns req.indices.isEdge response'.data.rows =
        entityColumns req.indices.isEdge response.data.rows ∧
      response'.result.failed.Perm response.result.failed ∧
      response'.result.requestCode = response.result.requestCode := by
  rcases hcache with hnone | ⟨homes, htracked⟩
  · exact entities_of_uncached hregistered hnone hplan hother hfresh hindifferent horder horder'
  · have huncached (asked : Lookup) (order : List PartId) :
        ((node.uncached 0).lookupInOrder asked order).2 = (node.lookupInOrder asked order).2 := by
      rw [(lookupInOrder_uncached 0 htracked.steady hregistered htracked.housed htracked.coherent
        asked order).1]
    intro response response'
    have hresponse : response = _ := (huncached _ _).symm
    have hresponse' : response' = _ := (huncached _ _).symm
    rw [hresponse, hresponse']
    exact @entities_of_uncached (node.uncached 0) req columns hregistered rfl _ _ _ _ hplan hother
      hfresh hindifferent _ _ horder horder'

/-- A partition that stores one person with its entries has none missing and none stale. -/
theorem exact_of_person {catalog : Catalog} {part : PartId} {found : Option Partition}
    (age : Int64) (indexes : List Index) (key : Bytes) (keys : List Bytes)
    (hstored :
      catalog.schema? 1 (.tag 3) = some { columns := [{ name := "age", ty := .int64 }] } ∧
      catalog.indexes 1 false = .ok indexes ∧
      Key.vertex 4 part "a" 3 = .ok key ∧
      (found.bind (·[key]?)).map (Row.decode { columns := [{ name := "age", ty := .int64 }] }) =
        some (.ok [.int age]) ∧
      Index.entryKeys 4 part (.tag 3) (.vertex "a") [("age", .int age)] indexes = .ok keys ∧
      found.map (·.keys) = some (key :: keys))
    {p : Partition} (hp : found = some p) :
    Site.Complete ⟨catalog, 1, 4, part⟩ p ∧ Site.StaleFree ⟨catalog, 1, 4, part⟩ p := by
  subst hp
  obtain ⟨hschema, hindexes, hkey, hread, hkeys, hall⟩ := hstored
  obtain ⟨raw, hraw, hread⟩ := Option.map_eq_some_iff.1 hread
  have hfull : Site.IsFull ⟨catalog, 1, 4, part⟩ ⟨.tag "a" 3, key, raw, keys⟩ :=
    Site.isFull_of_reads hkey ⟨_, _, hschema, hread, rfl⟩ hindexes hkeys
  have hall : p.keys = key :: keys := Option.some.inj hall
  refine hfull.exact (fun other => ?_) hraw
  rw [← Std.ExtTreeMap.mem_keys, hall, List.mem_cons]

/-- A lookup of people older than five finds the same whether or not it asks for a column outside
the index, also after the row that it joins for that has been cached. -/
theorem lookup_entities_people :
    let older : Expr := .relational .gt (.property "age") (.constant (.int 5))
    let req : Lookup := {
      space := 1
      parts := [1]
      indices := {
        queries := [{ index := 5, filter := older.encode }], isEdge := false, schemaId := 3 } }
    let node := (fresh .people (.table []) { vertexCacheCapacity := 1 }).after
      [.addPart ⟨1, 1⟩ default, .addPerson "a" 7,
        .lookup { req with returnColumns := ["other"] } [1]]
    node.cache.map (·.rows.length) = some 1 ∧
      req.Indifferent node 4 ["other"] ∧
      entityColumns false (node.lookupInOrder req [1]).2.data.rows = [[.str "a"]] ∧
      entityColumns false
        (node.lookupInOrder { req with returnColumns := ["other"] } [1]).2.data.rows =
          [[.str "a"]] := by
  intro older req node
  have hhome : ∀ event ∈ [.addPart ⟨1, 1⟩ default, .addPerson "a" 7,
      .lookup { req with returnColumns := ["other"] } [1]], Event.AtHome (fun _ _ => 1) event := by
    simp only [List.forall_mem_cons]
    exact ⟨trivial, Event.addPerson_atHome (by decide) 7, trivial, nofun⟩
  have htracked : node.Tracked .people fun _ _ => 1 :=
    (after_uncached Catalog.people_sound.registered (.table []) { vertexCacheCapacity := 1 }
      hhome).1
  have hcatalog : node.catalog = .people := htracked.steady.catalog_eq
  have hregistered : node.catalog.Registered := hcatalog ▸ Catalog.people_sound.registered
  have hfresh : ∀ part ∈ req.parts, ∀ p,
      node.store.parts[(⟨req.space, part⟩ : Address)]? = some p →
        Site.StaleFree ⟨node.catalog, req.space, 4, part⟩ p := by
    intro part hpart p hp
    obtain rfl := List.mem_singleton.1 hpart
    exact (exact_of_person 7
      [{ id := 5, name := "by_age", owner := .tag 3, columns := [{ name := "age", ty := .int64 }] }]
      [1, 0, 0, 1, 97, 0, 0, 0, 128, 0, 0, 3]
      [[3, 0, 0, 1, 128, 0, 0, 5, 128, 0, 0, 0, 0, 0, 0, 7, 97, 0, 0, 0]]
      (by decide +kernel) hp).2
  have hindifferent : req.Indifferent node 4 ["other"] := by
    intro query hquery index hnames
    obtain rfl := List.mem_singleton.1 hquery
    have hindex : (node.catalog.entry 1).indexes[(5 : IndexId)]? = some
        { id := 5, name := "by_age", owner := .tag 3,
          columns := [{ name := "age", ty := .int64 }] } := by
      decide +kernel
    obtain rfl := Option.some.inj (hnames.1.symm.trans hindex)
    refine .filter fun condition hdecode name hname => .column ?_ ?_
    · have hread : (Expr.decode? older.encode).map Expr.names = some ["age"] := by decide +kernel
      rw [hdecode] at hread
      have hnames : condition.names = ["age"] := Option.some.inj hread
      rw [hnames, List.mem_singleton] at hname
      rw [hname]
      decide
    · intro column hcolumn _ hdouble
      rw [List.mem_singleton.1 hcolumn] at hdouble
      cases hdouble
  have hplanned : (req.plan node).map (·.1) = .ok 4 := by decide +kernel
  have hasked : (Lookup.plan { req with returnColumns := ["other"] } node).map (·.1) = .ok 4 := by
    decide +kernel
  obtain ⟨⟨vidLen, plan⟩, hplan, rfl⟩ := map_eq_ok.1 hplanned
  obtain ⟨⟨width, other⟩, hother, -⟩ := map_eq_ok.1 hasked
  have hfound : entityColumns false (node.lookupInOrder req [1]).2.data.rows = [[.str "a"]] := by
    decide +kernel
  obtain ⟨hsame, -⟩ := lookup_entities hregistered (.inr ⟨_, hcatalog ▸ htracked⟩) hplan hother hfresh
    hindifferent (.refl [1]) (.refl [1])
  refine ⟨by decide +kernel, hindifferent, hfound, ?_⟩
  rw [← hfound]
  exact hsame

/-- Which entities a lookup finds can depend on the columns asked for although the index entries of
the partitions are exactly those of their rows. A filter may read a column outside the index, or an
integer of the rows in a double column of the index; and where two partitions store a row of one
vertex, the cached row may be that of the other partition. -/
theorem entities_ne_of_columns :
    let exact (node : Node) (part : PartId) : Prop := ∀ p : Partition,
      node.store.parts[(⟨1, part⟩ : Address)]? = some p →
        Site.Complete ⟨node.catalog, 1, 4, part⟩ p ∧ Site.StaleFree ⟨node.catalog, 1, 4, part⟩ p
    let lookup (index : IndexId) (filter : Expr) (part : PartId) (columns : List String) :
        Lookup := {
      space := 1
      parts := [part]
      indices := { queries := [{ index, filter := filter.encode }], isEdge := false, schemaId := 3 }
      returnColumns := columns }
    let found (node : Node) (req : Lookup) : Option (List Row) :=
      (req.plan node).toOption.map fun _ => entityColumns false (node.lookup req).2.data.rows
    let extended (columns : List Column) : Node :=
      (fresh (Catalog.people.addIndex 1 { id := 6, name := "extra", owner := .tag 3, columns })
        (.table []) {}).after [.addPart ⟨1, 1⟩ default, .addPerson "a" 7]
    let age : Expr := .property "age"
    let older : Expr := .relational .gt age (.constant (.int 5))
    let halved : Expr :=
      .relational .eq (.arithmetic .div age (.constant (.int 2))) (.constant (.int 3))
    let seven : Expr := .relational .eq age (.constant (.int 7))
    let plain := extended []
    let doubled := extended [{ name := "age", ty := .double }]
    let twice := (fresh .people (.table []) { vertexCacheCapacity := 1 }).after [
      .addPart ⟨1, 1⟩ default, .addPart ⟨1, 2⟩ default, .addPerson "a" 7,
      .batch (.addVertices {
        space := 1
        parts := .insert ∅ 2 [{ id := "a", tags := [{ tag := 3, props := [.int 8] }] }] }),
      .lookup (lookup 5 seven 1 ["other"]) [1]]
    (exact plain 1 ∧ found plain (lookup 6 older 1 []) = some [] ∧
      found plain (lookup 6 older 1 ["age"]) = some [[.str "a"]]) ∧
    (exact doubled 1 ∧ found doubled (lookup 6 halved 1 []) = some [] ∧
      found doubled (lookup 6 halved 1 ["other"]) = some [[.str "a"]]) ∧
    (exact twice 1 ∧ exact twice 2 ∧ found twice (lookup 5 seven 2 []) = some [] ∧
      found twice (lookup 5 seven 2 ["other"]) = some [[.str "a"]]) := by
  intro exact lookup found extended age older halved seven plain doubled twice
  let byAge : Index :=
    { id := 5, name := "by_age", owner := .tag 3, columns := [{ name := "age", ty := .int64 }] }
  have hplain : exact plain 1 := fun p hp =>
    exact_of_person 7 [byAge, { id := 6, name := "extra", owner := .tag 3, columns := [] }]
      [1, 0, 0, 1, 97, 0, 0, 0, 128, 0, 0, 3]
      [[3, 0, 0, 1, 128, 0, 0, 5, 128, 0, 0, 0, 0, 0, 0, 7, 97, 0, 0, 0],
        [3, 0, 0, 1, 128, 0, 0, 6, 97, 0, 0, 0]]
      (by decide +kernel) hp
  have hdoubled : exact doubled 1 := fun p hp =>
    exact_of_person 7
      [byAge,
        { id := 6, name := "extra", owner := .tag 3, columns := [{ name := "age", ty := .double }] }]
      [1, 0, 0, 1, 97, 0, 0, 0, 128, 0, 0, 3]
      [[3, 0, 0, 1, 128, 0, 0, 5, 128, 0, 0, 0, 0, 0, 0, 7, 97, 0, 0, 0],
        [3, 0, 0, 1, 128, 0, 0, 6, 192, 28, 0, 0, 0, 0, 0, 0, 97, 0, 0, 0]]
      (by decide +kernel) hp
  have hfirst : exact twice 1 := fun p hp =>
    exact_of_person 7 [byAge] [1, 0, 0, 1, 97, 0, 0, 0, 128, 0, 0, 3]
      [[3, 0, 0, 1, 128, 0, 0, 5, 128, 0, 0, 0, 0, 0, 0, 7, 97, 0, 0, 0]]
      (by decide +kernel) hp
  have hsecond : exact twice 2 := fun p hp =>
    exact_of_person 8 [byAge] [1, 0, 0, 2, 97, 0, 0, 0, 128, 0, 0, 3]
      [[3, 0, 0, 2, 128, 0, 0, 5, 128, 0, 0, 0, 0, 0, 0, 8, 97, 0, 0, 0]]
      (by decide +kernel) hp
  exact ⟨⟨hplain, by decide +kernel⟩, ⟨hdoubled, by decide +kernel⟩, hfirst, hsecond,
    by decide +kernel⟩

end Node

end GraphStore
