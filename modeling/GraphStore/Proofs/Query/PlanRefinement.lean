import GraphStore.Proofs.Query.Direct
import GraphStore.Proofs.Run.Event

/-!
# Plans refine the evaluation of their queries

What a query has to fulfil is stated without the order of the checks, and what it is refused with by
the first check that fails. A lookup's plan is built exactly when no query is refused, and running
it on a partition gives what the queries give one after another, whatever is stored there and
whatever the cache holds.
-/

namespace GraphStore

namespace ColumnHint

/-- Hints name leading columns in their order, and only the last one can be a range. -/
structure Follow (columns : List Column) (hints : List ColumnHint) : Prop where
  names : hints.map (·.column) <+: columns.map (·.name)
  equal : ∀ hint ∈ hints.dropLast, ∃ value, hint.scan = .equal value

/-- A hint fits the first column if it names it and is the last hint or no range. -/
theorem hintsFit_cons {column : Column} {columns : List Column} {hint : ColumnHint}
    {hints : List ColumnHint} :
    IndexQuery.hintsFit (column :: columns) (hint :: hints) = true ↔
      column.name = hint.column ∧ (hints = [] ∨ ∃ value, hint.scan = .equal value) ∧
        IndexQuery.hintsFit columns hints = true := by
  rw [IndexQuery.hintsFit]
  cases hint.scan <;> simp [and_assoc]

/-- The check of the hints finds out whether they follow the columns. -/
theorem hintsFit_iff {columns : List Column} {hints : List ColumnHint} :
    IndexQuery.hintsFit columns hints = true ↔ Follow columns hints := by
  induction hints generalizing columns with
  | nil =>
    simp only [IndexQuery.hintsFit, true_iff]
    exact ⟨List.nil_prefix, nofun⟩
  | cons hint hints ih =>
    cases columns with
    | nil =>
      simp only [IndexQuery.hintsFit, Bool.false_eq_true, false_iff]
      intro h
      simpa using h.names.length_le
    | cons column columns =>
      have hequal : (∀ other ∈ (hint :: hints).dropLast, ∃ value, other.scan = .equal value) ↔
          (hints = [] ∨ ∃ value, hint.scan = .equal value) ∧
            ∀ other ∈ hints.dropLast, ∃ value, other.scan = .equal value := by
        cases hints <;> simp
      rw [hintsFit_cons, ih]
      constructor
      · rintro ⟨hname, hscan, hrest⟩
        exact ⟨List.cons_prefix_cons.2 ⟨hname.symm, hrest.names⟩, hequal.2 ⟨hscan, hrest.equal⟩⟩
      · intro h
        obtain ⟨hname, hnames⟩ := List.cons_prefix_cons.1 h.names
        obtain ⟨hscan, hrest⟩ := hequal.1 h.equal
        exact ⟨hname.symm, hscan, hnames, hrest⟩

end ColumnHint

namespace IndexQuery

variable {catalog : Catalog} {space : SpaceId} {vidLen : Nat} {owner : SchemaRef}
  {columns : List String} {query : IndexQuery} {branch : Branch} {code : ErrorCode}

/-- The query names a registered index over the tag or edge type looked up. -/
def Names (query : IndexQuery) (catalog : Catalog) (space : SpaceId) (owner : SchemaRef)
    (index : Index) : Prop :=
  (catalog.entry space).indexes[query.index]? = some index ∧ index.owner = owner

/-- The code for a tag or edge type that is not registered. -/
def missingSchema (owner : SchemaRef) : ErrorCode :=
  if owner.isEdge then .edgeNotFound else .tagNotFound

/-- The first check that a query fails: of the index, of the hints, of the filter, or of the schema
of the rows that are joined for a column outside the index. -/
inductive Refused (catalog : Catalog) (space : SpaceId) (owner : SchemaRef) (columns : List String)
    (query : IndexQuery) : ErrorCode → Prop where
  | index (h : ∀ index, ¬ query.Names catalog space owner index) :
      Refused catalog space owner columns query .indexNotFound
  | hints {index : Index} (hindex : query.Names catalog space owner index)
      (h : ¬ ColumnHint.Follow index.columns query.hints) :
      Refused catalog space owner columns query .invalidOperation
  | filter {index : Index} (hindex : query.Names catalog space owner index)
      (hhints : ColumnHint.Follow index.columns query.hints) (hfilter : query.filter ≠ [])
      (h : Expr.decode? query.filter = none) :
      Refused catalog space owner columns query .invalidFilter
  | schema {index : Index} (hindex : query.Names catalog space owner index)
      (hhints : ColumnHint.Follow index.columns query.hints)
      (hfilter : query.filter ≠ [] → ∃ condition, Expr.decode? query.filter = some condition)
      (houtside : ∃ column ∈ columns, index.covers column = false)
      (h : catalog.schema? space owner = none) :
      Refused catalog space owner columns query (missingSchema owner)

/-- A branch does what its query asks for: it reads the index that the query names, narrowed by the
hints; it filters if there is a filter, and it joins if some column asked for is outside the
index. -/
structure Resolves (catalog : Catalog) (space : SpaceId) (vidLen : Nat) (owner : SchemaRef)
    (columns : List String) (query : IndexQuery) (branch : Branch) : Prop where
  names : query.Names catalog space owner branch.layout.index
  vidLen_eq : branch.layout.vidLen = vidLen
  hints_eq : branch.hints = query.hints
  follow : ColumnHint.Follow branch.layout.index.columns query.hints
  unfiltered : query.filter = [] → branch.condition = none
  filtered : query.filter ≠ [] →
    ∃ condition, Expr.decode? query.filter = some condition ∧ branch.condition = some condition
  covered : (∀ column ∈ columns, branch.layout.index.covers column = true) → branch.schema = none
  joined : (∃ column ∈ columns, branch.layout.index.covers column = false) →
    ∃ schema, catalog.schema? space owner = some schema ∧ branch.schema = some schema
  returnColumns_eq : branch.returnColumns = columns

/-- The index that a query names is resolved. -/
theorem resolve_eq_ok {index : Index} :
    query.resolve catalog space owner = .ok index ↔ query.Names catalog space owner index := by
  unfold resolve Catalog.index Names
  cases (catalog.entry space).indexes[query.index]? with
  | none => simp
  | some found =>
    by_cases howner : found.owner = owner
    · subst howner
      simp only [↓reduceIte, Except.ok.injEq, Option.some.injEq]
      exact ⟨fun heq => ⟨heq, by rw [heq]⟩, And.left⟩
    · have hother : found = index → ¬ index.owner = owner := by
        rintro rfl
        exact howner
      by_cases hkind : found.owner.isEdge = owner.isEdge <;> simpa [hkind, howner] using hother

/-- A query that names no index is refused for that. -/
theorem resolve_eq_error :
    query.resolve catalog space owner = .error code ↔
      (∀ index, ¬ query.Names catalog space owner index) ∧ code = .indexNotFound := by
  have hcode {other : ErrorCode} (h : query.resolve catalog space owner = .error other) :
      other = .indexNotFound := by
    unfold resolve at h
    split at h
    · exact (Except.error.inj h).symm
    · split at h
      · cases h
      · exact (Except.error.inj h).symm
  simp only [← resolve_eq_ok]
  cases hindex : query.resolve catalog space owner with
  | ok index => simp
  | error other => simp [hcode hindex, eq_comm]

/-- The filter of a query is decoded, if there is one. -/
theorem decodedFilter_eq_ok {condition : Option Expr} :
    query.decodedFilter = .ok condition ↔ (query.filter = [] → condition = none) ∧
      (query.filter ≠ [] →
        ∃ filter, Expr.decode? query.filter = some filter ∧ condition = some filter) := by
  unfold decodedFilter
  by_cases hfilter : query.filter = []
  · simp only [hfilter, List.isEmpty_nil, if_true, Except.ok.injEq, true_imp_iff, ne_eq,
      not_true_eq_false, false_imp_iff, and_true]
    exact eq_comm
  · cases Expr.decode? query.filter with
    | none => simp [hfilter]
    | some filter => simpa [hfilter] using eq_comm

/-- A filter that cannot be decoded is refused. -/
theorem decodedFilter_eq_error :
    query.decodedFilter = .error code ↔
      (query.filter ≠ [] ∧ Expr.decode? query.filter = none) ∧ code = .invalidFilter := by
  unfold decodedFilter
  by_cases hfilter : query.filter = []
  · simp [hfilter]
  · cases Expr.decode? query.filter with
    | none => simpa [hfilter] using eq_comm
    | some filter => simp [hfilter]

/-- The schema is looked up, if a column asked for is outside the index. -/
theorem joinSchema_eq_ok {index : Index} {schema : Option Schema} :
    joinSchema catalog space owner index columns = .ok schema ↔
      ((∀ column ∈ columns, index.covers column = true) → schema = none) ∧
      ((∃ column ∈ columns, index.covers column = false) →
        ∃ found, catalog.schema? space owner = some found ∧ schema = some found) := by
  unfold joinSchema
  by_cases hall : columns.all index.covers = true
  · have hcovered := List.all_eq_true.1 hall
    have houtside : ¬ ∃ column ∈ columns, index.covers column = false := by
      simpa using hcovered
    rw [if_pos hall]
    constructor
    · exact fun h => ⟨fun _ => (Except.ok.inj h).symm, fun h' => absurd h' houtside⟩
    · exact fun h => congrArg Except.ok (h.1 hcovered).symm
  · have houtside : ∃ column ∈ columns, index.covers column = false := by
      simpa using hall
    have hcovered : ¬ ∀ column ∈ columns, index.covers column = true := by
      simpa using hall
    cases catalog.schema? space owner with
    | none => simp [hall, hcovered, houtside]
    | some found => simpa [hall, hcovered, houtside] using eq_comm

/-- A schema that is not registered is refused. -/
theorem joinSchema_eq_error {index : Index} :
    joinSchema catalog space owner index columns = .error code ↔
      ((∃ column ∈ columns, index.covers column = false) ∧ catalog.schema? space owner = none) ∧
        code = missingSchema owner := by
  unfold joinSchema missingSchema
  by_cases hall : columns.all index.covers = true
  · have houtside : ¬ ∃ column ∈ columns, index.covers column = false := by
      simpa using hall
    simp [hall, houtside]
  · have houtside : ∃ column ∈ columns, index.covers column = false := by
      simpa using hall
    cases catalog.schema? space owner with
    | none => simpa [hall, houtside] using eq_comm
    | some found => simp [hall]

/-- A query gives the branch that does what it asks for. -/
theorem branch_eq_ok :
    query.branch catalog space vidLen owner columns = .ok branch ↔
      query.Resolves catalog space vidLen owner columns branch := by
  rw [IndexQuery.branch, bind_eq_ok]
  constructor
  · rintro ⟨index, hindex, h⟩
    dsimp only at h
    split at h
    · cases h
    · next hfit =>
      obtain ⟨condition, hcondition, h⟩ := bind_eq_ok.1 h
      obtain ⟨schema, hschema, h⟩ := bind_eq_ok.1 h
      cases h
      obtain ⟨hunfiltered, hfiltered⟩ := decodedFilter_eq_ok.1 hcondition
      obtain ⟨hcovered, hjoined⟩ := joinSchema_eq_ok.1 hschema
      exact ⟨resolve_eq_ok.1 hindex, rfl, rfl, ColumnHint.hintsFit_iff.1 (by simpa using hfit),
        hunfiltered, hfiltered, hcovered, hjoined, rfl⟩
  · intro h
    have hfit := ColumnHint.hintsFit_iff.2 h.follow
    refine ⟨_, resolve_eq_ok.2 h.names, ?_⟩
    simp only [hfit, Bool.not_true, Bool.false_eq_true, if_false]
    refine bind_eq_ok.2 ⟨_, decodedFilter_eq_ok.2 ⟨h.unfiltered, h.filtered⟩, ?_⟩
    refine bind_eq_ok.2 ⟨_, joinSchema_eq_ok.2 ⟨h.covered, h.joined⟩, ?_⟩
    rw [← h.vidLen_eq, ← h.hints_eq, ← h.returnColumns_eq]
    rfl

/-- A query is refused with the first check that it fails. -/
theorem branch_eq_error :
    query.branch catalog space vidLen owner columns = .error code ↔
      query.Refused catalog space owner columns code := by
  rw [IndexQuery.branch, bind_eq_error]
  constructor
  · rintro (h | ⟨index, hindex, h⟩)
    · obtain ⟨hnone, rfl⟩ := resolve_eq_error.1 h
      exact .index hnone
    · have hnames := resolve_eq_ok.1 hindex
      dsimp only at h
      split at h
      · next hfit =>
        cases h
        refine .hints hnames fun hfollow => ?_
        simp [ColumnHint.hintsFit_iff.2 hfollow] at hfit
      · next hfit =>
        have hfollow := ColumnHint.hintsFit_iff.1 (by simpa using hfit)
        rcases bind_eq_error.1 h with h | ⟨condition, hcondition, h⟩
        · obtain ⟨⟨hfilter, hdecode⟩, rfl⟩ := decodedFilter_eq_error.1 h
          exact .filter hnames hfollow hfilter hdecode
        · rcases bind_eq_error.1 h with h | ⟨schema, -, h⟩
          · obtain ⟨⟨houtside, hmissing⟩, rfl⟩ := joinSchema_eq_error.1 h
            refine .schema hnames hfollow (fun hfilter => ?_) houtside hmissing
            obtain ⟨filter, hfilter, -⟩ := (decodedFilter_eq_ok.1 hcondition).2 hfilter
            exact ⟨filter, hfilter⟩
          · cases h
  · intro h
    cases h with
    | index hnone => exact .inl (resolve_eq_error.2 ⟨hnone, rfl⟩)
    | hints hindex hhints =>
      have hfit := Bool.eq_false_iff.2 fun h => hhints (ColumnHint.hintsFit_iff.1 h)
      refine .inr ⟨_, resolve_eq_ok.2 hindex, ?_⟩
      simp only [hfit, Bool.not_false, if_true]
      rfl
    | filter hindex hhints hfilter hdecode =>
      refine .inr ⟨_, resolve_eq_ok.2 hindex, ?_⟩
      simp only [ColumnHint.hintsFit_iff.2 hhints, Bool.not_true, Bool.false_eq_true, if_false]
      exact bind_eq_error.2 (.inl (decodedFilter_eq_error.2 ⟨⟨hfilter, hdecode⟩, rfl⟩))
    | schema hindex hhints hfilter houtside hmissing =>
      refine .inr ⟨_, resolve_eq_ok.2 hindex, ?_⟩
      simp only [ColumnHint.hintsFit_iff.2 hhints, Bool.not_true, Bool.false_eq_true, if_false]
      have hcondition : ∃ condition, query.decodedFilter = .ok condition := by
        by_cases hempty : query.filter = []
        · exact ⟨none, decodedFilter_eq_ok.2 ⟨fun _ => rfl, fun h => absurd hempty h⟩⟩
        · obtain ⟨filter, hdecode⟩ := hfilter hempty
          exact ⟨some filter, decodedFilter_eq_ok.2
            ⟨fun h => absurd h hempty, fun _ => ⟨filter, hdecode, rfl⟩⟩⟩
      obtain ⟨condition, hcondition⟩ := hcondition
      refine bind_eq_error.2 (.inr ⟨condition, hcondition, bind_eq_error.2 (.inl ?_)⟩)
      exact joinSchema_eq_error.2 ⟨⟨houtside, hmissing⟩, rfl⟩

end IndexQuery

/-- The tag or edge type that is looked up. -/
def IndexSpec.owner (indices : IndexSpec) : SchemaRef := .of indices.isEdge indices.schemaId

/-- A lookup without queries is refused, and one with a query that is refused while the ones before
it are not. -/
inductive IndexSpec.Refused (catalog : Catalog) (space : SpaceId) (columns : List String)
    (indices : IndexSpec) : ErrorCode → Prop where
  | empty (h : indices.queries = []) : Refused catalog space columns indices .invalidOperation
  | query {before after : List IndexQuery} {query : IndexQuery} {code : ErrorCode}
      (hqueries : indices.queries = before ++ query :: after)
      (hbefore : ∀ other ∈ before, ∀ code, ¬ other.Refused catalog space indices.owner columns code)
      (h : query.Refused catalog space indices.owner columns code) :
      Refused catalog space columns indices code

namespace Plan

variable {catalog : Catalog} {space : SpaceId} {vidLen : Nat} {indices : IndexSpec}
  {columns : List String} {code : ErrorCode} {plan : Plan}

/-- A query resolves unless it is refused. -/
theorem exists_branch_iff {query : IndexQuery} {owner : SchemaRef} :
    (∃ branch, query.branch catalog space vidLen owner columns = .ok branch) ↔
      ∀ code, ¬ query.Refused catalog space owner columns code := by
  simp only [← @IndexQuery.branch_eq_error catalog space vidLen]
  cases query.branch catalog space vidLen owner columns with
  | ok branch => simp
  | error code => simp

/-- A plan is refused with what the first query is refused with. -/
theorem build_eq_error :
    build catalog space vidLen indices columns = .error code ↔
      indices.Refused catalog space columns code := by
  have hmap {branches : Except ErrorCode (List Branch)} {make : List Branch → Plan} :
      branches.map make = .error code ↔ branches = .error code := by
    cases branches <;> simp [Except.map]
  rw [build_eq]
  split
  · next hempty =>
    constructor
    · intro h
      cases h
      exact .empty hempty
    · intro h
      cases h with
      | empty => rfl
      | query hqueries =>
        rw [hempty] at hqueries
        simp at hqueries
  · next hsome =>
    rw [hmap, IndexQuery.branches, mapM_eq_error]
    constructor
    · rintro ⟨before, query, after, hqueries, hbefore, h⟩
      exact .query hqueries (fun other hother => exists_branch_iff.1 (hbefore other hother))
        (IndexQuery.branch_eq_error.1 h)
    · intro h
      cases h with
      | empty hempty => exact absurd hempty hsome
      | query hqueries hbefore h =>
        exact ⟨_, _, _, hqueries, fun other hother => exists_branch_iff.2 (hbefore other hother),
          IndexQuery.branch_eq_error.2 h⟩

/-- A plan that is built is that of branches that do what their queries ask for. -/
theorem build_eq_ok (h : build catalog space vidLen indices columns = .ok plan) :
    indices.queries ≠ [] ∧ ∃ branches,
      List.Forall₂ (fun query branch =>
        query.Resolves catalog space vidLen indices.owner columns branch) indices.queries branches ∧
      plan = ofBranches (resultColumns indices.isEdge columns) branches := by
  rw [build_eq] at h
  split at h
  · cases h
  · next hsome =>
    obtain ⟨branches, hbranches, rfl⟩ := map_eq_ok.1 h
    rw [IndexQuery.branches, mapM_eq_ok] at hbranches
    exact ⟨hsome, branches, hbranches.imp fun _ _ h => IndexQuery.branch_eq_ok.1 h, rfl⟩

/-- Building and running a plan is evaluating its queries. It is refused exactly with what the first
query is refused that fails a check, or when there is no query. Otherwise its run on a partition
gives what the queries give one after another, or the first failure of a scan or a join and then no
rows, and every operator that it comes to finds its inputs. -/
theorem build_refines_evaluation (catalog : Catalog) (space : SpaceId) (vidLen : Nat)
    (indices : IndexSpec) (columns : List String) :
    (∀ code, build catalog space vidLen indices columns = .error code ↔
      indices.Refused catalog space columns code) ∧
    ∀ plan, build catalog space vidLen indices columns = .ok plan →
      plan.data = { columns := resultColumns indices.isEdge columns } ∧
      ∃ branches,
        List.Forall₂ (fun query branch =>
          query.Resolves catalog space vidLen indices.owner columns branch)
          indices.queries branches ∧
        ∀ (scope : QueryScope) (part : PartId) (cache : Option VertexCache),
          plan.Fed scope part plan.executionOrder (plan.nodes.map fun _ => none) cache ∧
          match Branch.evaluateAll scope part branches cache with
          | (after, .ok rows) => plan.go scope part cache = { cache := after, rows, result := .ok () }
          | (after, .error code) =>
            plan.go scope part cache = { cache := after, rows := [], result := .error code } := by
  refine ⟨fun code => build_eq_error, fun plan h => ?_⟩
  obtain ⟨-, branches, hbranches, rfl⟩ := build_eq_ok h
  refine ⟨rfl, branches, hbranches, fun scope part cache => ⟨?_, ?_⟩⟩
  · exact (wired_ofBranches _ branches).fed scope part cache
  · rw [go_ofBranches]
    rcases Branch.evaluateAll scope part branches cache with ⟨after, code | rows⟩ <;> rfl

/-- A plan of two queries over two people. The first is narrowed to another age and finds nothing. The
second reads an index without the age: it joins the stored rows, keeps those older than five, and
shows the age of the one that is left. -/
theorem build_refines_evaluation_people :
    let catalog := Catalog.people.addIndex 1 { id := 6, name := "all", owner := .tag 3, columns := [] }
    let older : Expr := .relational .gt (.property "age") (.constant (.int 5))
    let indices : IndexSpec := {
      queries := [{ index := 5, hints := [⟨"age", .equal (.int 8)⟩] },
        { index := 6, filter := older.encode }]
      isEdge := false
      schemaId := 3 }
    let node := (Node.fresh catalog (.table []) {}).after
      [.addPart ⟨1, 1⟩ default, .addPerson "a" 7, .addPerson "b" 4]
    let scope : QueryScope := { node, space := 1, vidLen := 4, schemaId := 3 }
    ∃ plan branches, build catalog 1 4 indices ["age"] = .ok plan ∧
      plan.data = { columns := ["_vid", "age"] } ∧
      List.Forall₂ (fun query branch => query.Resolves catalog 1 4 indices.owner ["age"] branch)
        indices.queries branches ∧
      branches.map (·.schema.isSome) = [false, true] ∧
      plan.Fed scope 1 plan.executionOrder (plan.nodes.map fun _ => none) none ∧
      (plan.go scope 1 none).rows = [[.str "a", .int 7]] := by
  intro catalog older indices node scope
  have hbuilt : (build catalog 1 4 indices ["age"]).map
      (fun plan => (plan.go scope 1 none).rows) = .ok [[.str "a", .int 7]] := by
    decide +kernel
  obtain ⟨plan, hplan, hrows⟩ := map_eq_ok.1 hbuilt
  obtain ⟨hdata, branches, hbranches, hrun⟩ :=
    (build_refines_evaluation catalog 1 4 indices ["age"]).2 plan hplan
  have hmade : IndexQuery.branches catalog 1 4 indices.owner ["age"] indices.queries = .ok branches :=
    mapM_eq_ok.2 (hbranches.imp fun _ _ h => IndexQuery.branch_eq_ok.2 h)
  have hjoins : (IndexQuery.branches catalog 1 4 indices.owner ["age"] indices.queries).map
      (·.map (·.schema.isSome)) = .ok [false, true] := by
    decide +kernel
  rw [hmade] at hjoins
  exact ⟨plan, branches, hplan, hdata, hbranches, Except.ok.inj hjoins, (hrun scope 1 none).1, hrows⟩

end Plan

end GraphStore
