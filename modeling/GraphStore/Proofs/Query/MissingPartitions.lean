import GraphStore.Proofs.Query.Entities
import GraphStore.Proofs.Query.Hints
import GraphStore.Proofs.Storage.StemRange

/-!
# Partitions that are not there

A partition that the store does not have adds nothing to the answer to a lookup and takes nothing
away: the rows, the cache and what is listed of the other partitions are as if it had not been asked
for. It is listed itself, unless each query narrows a column of fixed width down to a range that
stops at or before its start. Such a range is answered without looking for the partition.
-/

namespace GraphStore

open IndexLayout (encodeLeading encodeValue)

/-- Whether hints end in a range of a column of fixed width that stops at or before its start. -/
inductive ColumnHint.Void (columns : List Column) (hints : List ColumnHint) : Prop where
  | range {low high : Value} {column : Column} {lead start stop : Bytes}
      (hlead : encodeLeading columns (equalValues hints) = .ok lead)
      (hrange : lastRange? hints = some (low, high))
      (hcolumn : columns[(equalValues hints).length]? = some column)
      (hfixed : column.ty.isVarLen = false)
      (hstart : encodeValue column low = .ok start) (hstop : encodeValue column high = .ok stop)
      (hvoid : (compare start stop).isGE = true)

/-- What can be found where there is nothing: nothing if that is not noticed, and a failure if it
is. -/
inductive FindsNothing {α : Type} (unnoticed : Prop) : Except ErrorCode (List α) → Prop where
  | nothing (h : unnoticed) : FindsNothing unnoticed (.ok [])
  | failure {code : ErrorCode} (h : ¬ unnoticed) (hcode : code ≠ .succeeded) :
      FindsNothing unnoticed (.error code)

namespace FindsNothing

variable {α : Type} {unnoticed : Prop} {x : Except ErrorCode (List α)}

/-- It is enough to know when nothing is found. -/
theorem of_truthful (h : Truthful x) (hfound : ∀ items, x = .ok items → unnoticed)
    (hnothing : unnoticed → x = .ok []) : FindsNothing unnoticed x := by
  cases x with
  | ok items =>
    have hunnoticed := hfound items rfl
    rw [hnothing hunnoticed]
    exact .nothing hunnoticed
  | error code =>
    refine .failure (fun hunnoticed => ?_) fun hcode => h.ne_succeeded (by rw [hcode])
    cases hnothing hunnoticed

/-- What is noticed is reported. -/
theorem code_ne_succeeded {result : PartRows} (h : FindsNothing unnoticed result.outcome) :
    result.code ≠ .succeeded ↔ ¬ unnoticed := by
  unfold PartRows.code
  generalize result.outcome = outcome at h
  cases h with
  | nothing h => exact iff_of_false (fun hne => hne rfl) (not_not_intro h)
  | failure h hcode => exact iff_of_true hcode h

end FindsNothing

namespace Node

variable {node : Node} {space : SpaceId} {part : PartId}

/-- A range of a partition that is not there is answered if it is void. -/
theorem range_of_missing (hmissing : node.store.parts[(⟨space, part⟩ : Address)]? = none)
    {start stop : Bytes} {entries : List Entry} :
    node.range space part start stop = .ok entries ↔
      part ∉ node.down ∧ (compare start stop).isGE = true ∧ entries = [] := by
  unfold range reading Store.range Store.read
  rw [hmissing]
  by_cases hdown : part ∈ node.down
  · rw [if_pos hdown]
    exact ⟨nofun, fun h => absurd hdown h.1⟩
  · rw [if_neg hdown]
    by_cases hvoid : (compare start stop).isGE = true
    · rw [if_pos hvoid, Except.ok.injEq]
      exact ⟨fun h => ⟨hdown, hvoid, h.symm⟩, fun h => h.2.2.symm⟩
    · rw [if_neg hvoid]
      exact ⟨nofun, fun h => absurd h.2.1 hvoid⟩

end Node

namespace QueryScope

variable {scope : QueryScope} {part : PartId} {layout : IndexLayout} {hints : List ColumnHint}
  (hmissing : scope.node.store.parts[(⟨scope.space, part⟩ : Address)]? = none)
include hmissing

/-- A read of a partition that is not there succeeds for void hints alone. -/
theorem void_of_readIndex {entries : List Entry}
    (h : scope.readIndex part layout hints = .ok entries) :
    part ∉ scope.node.down ∧ ColumnHint.Void layout.index.columns hints := by
  obtain ⟨stem, hstem, h⟩ := bind_eq_ok.1 h
  obtain ⟨lead, hlead, rfl⟩ := IndexLayout.scanStem_eq_ok hstem
  dsimp only at h
  split at h
  · obtain ⟨p, hp, -⟩ := Node.of_reading_read (mapError_eq_ok.1 h)
    cases hmissing.symm.trans hp
  · next low high hrange =>
    split at h
    case h_2 => cases h
    next column hcolumn =>
    rw [pure_bind] at h
    obtain ⟨start, hstart, h⟩ := bind_eq_ok.1 h
    split at h
    · obtain ⟨-, hge, -⟩ := (Node.range_of_missing hmissing).1 (mapError_eq_ok.1 h)
      -- A range of strings ends behind everything that begins with its stem.
      have hbyte := IndexLayout.exists_ne_of_indexStem part layout.index.id lead
      have hlt := (Key.isLeastAbove_upperBound hbyte).above _ (List.prefix_append _ start)
      rw [hlt] at hge
      cases hge
    · next hfixed =>
      obtain ⟨stop, hstop, h⟩ := bind_eq_ok.1 h
      obtain ⟨hup, hge, -⟩ := (Node.range_of_missing hmissing).1 (mapError_eq_ok.1 h)
      rw [Bytes.compare_append_left] at hge
      exact ⟨hup, .range hlead hrange hcolumn (Bool.eq_false_iff.2 hfixed) hstart hstop hge⟩

/-- For void hints nothing is read. -/
theorem readIndex_of_void (hup : part ∉ scope.node.down)
    (hvoid : ColumnHint.Void layout.index.columns hints) :
    scope.readIndex part layout hints = .ok [] := by
  cases hvoid with
  | range hlead hrange hcolumn hfixed hstart hstop hge =>
    have hlength := Nat.le_of_lt (List.getElem?_eq_some_iff.1 hcolumn).1
    apply bind_eq_ok.2
    refine ⟨_, IndexLayout.scanStem_of_encodeLeading hlength hlead, ?_⟩
    rw [hrange]
    simp only [hcolumn, pure_bind, hfixed, Bool.false_eq_true, if_false]
    refine bind_eq_ok.2 ⟨_, hstart, bind_eq_ok.2 ⟨_, hstop, mapError_eq_ok.2 ?_⟩⟩
    apply (Node.range_of_missing hmissing).2
    rw [Bytes.compare_append_left]
    exact ⟨hup, hge, rfl⟩

/-- A scan of a partition that is not there finds no hits if the hints are void, and else fails. -/
theorem scan_of_missing (layout : IndexLayout) (hints : List ColumnHint) :
    FindsNothing (part ∉ scope.node.down ∧ ColumnHint.Void layout.index.columns hints)
      (scope.scan part layout hints) := by
  apply FindsNothing.of_truthful (scope.scan_truthful part layout hints)
  · intro hits h
    obtain ⟨entries, hentries, -⟩ := bind_eq_ok.1 h
    exact void_of_readIndex hmissing hentries
  · intro h
    rw [scan, readIndex_of_void hmissing h.1 h.2]
    rfl

end QueryScope

namespace Branch

variable {scope : QueryScope} {part : PartId}

/-- On a partition that is not there a branch leaves the cache as it is, and finds no rows or fails
as its scan does. -/
theorem evaluate_of_missing
    (hmissing : scope.node.store.parts[(⟨scope.space, part⟩ : Address)]? = none) (branch : Branch)
    (cache : Option VertexCache) :
    ∃ result, branch.evaluate scope part cache = (cache, result) ∧
      FindsNothing (part ∉ scope.node.down ∧
        ColumnHint.Void branch.layout.index.columns branch.hints) result := by
  have hscan := QueryScope.scan_of_missing hmissing branch.layout branch.hints
  unfold evaluate
  generalize scope.scan part branch.layout branch.hints = found at hscan
  cases hscan with
  | failure h hcode => exact ⟨_, rfl, .failure h hcode⟩
  | nothing h =>
    refine ⟨.ok [], ?_, .nothing h⟩
    unfold joinRows resultRows kept
    cases branch.schema <;> cases branch.condition <;> rfl

/-- Branches find no rows on a partition that is not there if none of them notices, and else fail.
-/
theorem evaluateAll_of_missing
    (hmissing : scope.node.store.parts[(⟨scope.space, part⟩ : Address)]? = none)
    (branches : List Branch) (cache : Option VertexCache) :
    ∃ result, evaluateAll scope part branches cache = (cache, result) ∧
      FindsNothing (∀ branch ∈ branches, part ∉ scope.node.down ∧
        ColumnHint.Void branch.layout.index.columns branch.hints) result := by
  induction branches with
  | nil => exact ⟨.ok [], rfl, .nothing nofun⟩
  | cons branch branches ih =>
    obtain ⟨found, hfound, hfirst⟩ := branch.evaluate_of_missing hmissing cache
    obtain ⟨others, hothers, hrest⟩ := ih
    simp only [evaluateAll, hfound, List.forall_mem_cons]
    cases hfirst with
    | failure h hcode => exact ⟨_, rfl, .failure (fun hall => h hall.1) hcode⟩
    | nothing h =>
      simp only [hothers]
      cases hrest with
      | failure hnot hcode => exact ⟨_, rfl, .failure (fun hall => hnot hall.2) hcode⟩
      | nothing hrest => exact ⟨_, rfl, .nothing ⟨h, hrest⟩⟩

end Branch

namespace Lookup

variable {req : Lookup} {node : Node} {vidLen : Nat} {plan : Plan} {scope : QueryScope}

/-- Whether each query of a lookup narrows its index down to a void range. -/
def Void (req : Lookup) (catalog : Catalog) : Prop :=
  ∀ query ∈ req.indices.queries, ∃ index,
    query.Names catalog req.space req.indices.owner index ∧
      ColumnHint.Void index.columns query.hints

/-- What a plan finds on a partition with what is cached. -/
def outcomeWith (scope : QueryScope) (plan : Plan) (part : PartId) (cache : Option VertexCache) :
    Except ErrorCode (List Row) :=
  (plan.go scope part cache).result.map fun _ => (plan.go scope part cache).rows

/-- A lookup is void if its branches are. -/
theorem void_iff {catalog : Catalog} {branches : List Branch}
    (hbranches : List.Forall₂ (fun query branch =>
      query.Resolves catalog req.space vidLen req.indices.owner req.returnColumns branch)
      req.indices.queries branches) :
    req.Void catalog ↔
      ∀ branch ∈ branches, ColumnHint.Void branch.layout.index.columns branch.hints := by
  constructor
  · intro h branch hbranch
    obtain ⟨query, hquery, hresolves⟩ := exists_of_forall₂_right hbranches hbranch
    obtain ⟨index, hnames, hvoid⟩ := h query hquery
    obtain rfl := Option.some.inj (hnames.1.symm.trans hresolves.names.1)
    exact hresolves.hints_eq ▸ hvoid
  · intro h query hquery
    obtain ⟨branch, hbranch, hresolves⟩ := exists_of_forall₂_left hbranches hquery
    exact ⟨_, hresolves.names, hresolves.hints_eq ▸ h branch hbranch⟩

/-- On a partition that is not there the plan of a lookup leaves the cache as it is. It finds no
rows if the lookup is void, and else fails. -/
theorem go_of_missing (hplan : req.plan node = .ok (vidLen, plan)) {part : PartId}
    (hmissing : node.store.parts[(⟨req.space, part⟩ : Address)]? = none)
    (cache : Option VertexCache) :
    (plan.go (req.scope node vidLen) part cache).cache = cache ∧
      FindsNothing (part ∉ node.down ∧ req.Void node.catalog)
        (outcomeWith (req.scope node vidLen) plan part cache) := by
  obtain ⟨hsome, branches, hbranches, rfl⟩ := Plan.build_eq_ok (plan_eq_ok.1 hplan).2
  obtain ⟨query, hquery⟩ := List.exists_mem_of_ne_nil _ hsome
  obtain ⟨branch, hbranch, -⟩ := exists_of_forall₂_left hbranches hquery
  have hvoid : (∀ branch ∈ branches, part ∉ node.down ∧
      ColumnHint.Void branch.layout.index.columns branch.hints) ↔
        part ∉ node.down ∧ req.Void node.catalog := by
    rw [void_iff hbranches]
    exact ⟨fun h => ⟨(h branch hbranch).1, fun other hother => (h other hother).2⟩,
      fun h other hother => ⟨h.1, h.2 other hother⟩⟩
  obtain ⟨result, heval, hresult⟩ := @Branch.evaluateAll_of_missing (req.scope node vidLen) part
    hmissing branches cache
  unfold outcomeWith
  rw [Plan.go_ofBranches, heval]
  refine ⟨rfl, ?_⟩
  cases hresult with
  | nothing h => exact .nothing (hvoid.1 h)
  | failure h hcode => exact .failure (mt hvoid.2 h) hcode

/-- Partitions are looked at one by one. -/
theorem parts_runParts (scope : QueryScope) (plan : Plan) (cache : Option VertexCache)
    (order : List PartId) : (runParts scope plan cache order).2.map (·.part) = order := by
  induction order generalizing cache with
  | nil => rfl
  | cons part order ih => exact congrArg (part :: ·) (ih _)

/-- What is found on a partition is found with some cache. -/
theorem mem_runParts {cache : Option VertexCache} {order : List PartId} {result : PartRows}
    (h : result ∈ (runParts scope plan cache order).2) :
    ∃ before, result.outcome = outcomeWith scope plan result.part before := by
  induction order generalizing cache with
  | nil => cases h
  | cons part order ih =>
    rcases List.mem_cons.1 h with rfl | h
    · exact ⟨cache, rfl⟩
    · exact ih h

/-- Partitions on which the plan leaves the cache as it is can be left out. -/
theorem runParts_filter {has : PartId → Bool}
    (h : ∀ part, has part = false → ∀ cache, (plan.go scope part cache).cache = cache)
    (cache : Option VertexCache) (order : List PartId) :
    runParts scope plan cache (order.filter has) =
      ((runParts scope plan cache order).1,
        (runParts scope plan cache order).2.filter (has ·.part)) := by
  induction order generalizing cache with
  | nil => rfl
  | cons part order ih =>
    by_cases hpart : has part = true
    · rw [List.filter_cons_of_pos hpart]
      simp only [runParts]
      rw [ih, List.filter_cons, if_pos hpart]
    · rw [List.filter_cons_of_neg hpart]
      simp only [runParts]
      rw [h part (Bool.eq_false_iff.2 hpart), ih, List.filter_cons, if_neg hpart]

/-- The rows last found on a partition are kept. -/
theorem getElem?_keep (kept : PartMap (List Row)) (result : PartRows) (part : PartId) :
    (keep kept result)[part]? =
      if result.part = part then result.outcome.toOption.or kept[part]? else kept[part]? := by
  unfold keep
  cases result.outcome with
  | error code => exact (ite_self _).symm
  | ok rows =>
    dsimp only
    rw [Std.ExtTreeMap.getElem?_insert]
    exact if_congr Std.LawfulEqCmp.compare_eq_iff_eq rfl rfl

/-- What is kept of some partitions is what is kept of them among all. -/
theorem getElem?_keep_filter (has : PartId → Bool) (results : List PartRows) (part : PartId) :
    ((results.filter (has ·.part)).foldl keep ∅)[part]? =
      if has part then (results.foldl keep ∅)[part]? else none := by
  induction results using List.reverseRecOn with
  | nil => exact (ite_self _).symm
  | append_singleton results last ih =>
    rw [List.filter_append, List.foldl_append, List.foldl_append, List.foldl_cons, List.foldl_nil,
      getElem?_keep, List.filter_cons]
    by_cases hlast : last.part = part
    · subst hlast
      by_cases hhas : has last.part = true
      · rw [if_pos hhas, List.filter_nil, List.foldl_cons, List.foldl_nil, getElem?_keep, ih]
        simp only [if_true, if_pos hhas]
      · simp only [if_neg hhas, List.filter_nil, List.foldl_nil, ih]
    · rw [if_neg hlast]
      split
      · rw [List.filter_nil, List.foldl_cons, List.foldl_nil, getElem?_keep, if_neg hlast, ih]
      · exact ih

/-- What is kept of a partition was found there. -/
theorem exists_of_keep {results : List PartRows} {part : PartId} {rows : List Row}
    (h : (results.foldl keep ∅)[part]? = some rows) :
    ∃ result ∈ results, result.part = part ∧ result.outcome = .ok rows := by
  induction results using List.reverseRecOn with
  | nil => cases h
  | append_singleton results last ih =>
    rw [List.foldl_append, List.foldl_cons, List.foldl_nil, getElem?_keep] at h
    have hearlier (h : (results.foldl keep ∅)[part]? = some rows) :
        ∃ result ∈ results ++ [last], result.part = part ∧ result.outcome = .ok rows := by
      obtain ⟨result, hresult, hfound⟩ := ih h
      exact ⟨result, List.mem_append_left _ hresult, hfound⟩
    split at h
    · next hlast =>
      cases houtcome : last.outcome with
      | ok found =>
        rw [houtcome] at h
        cases h
        exact ⟨last, List.mem_append_right _ (List.mem_singleton_self last), hlast, houtcome⟩
      | error code =>
        rw [houtcome] at h
        exact hearlier h
    · exact hearlier h

/-- The rows that are merged are those of partitions that have some. -/
theorem merge_eq (results : List PartRows) : merge results =
    (((results.foldl keep ∅).filter fun _ rows => !rows.isEmpty).toList.map (·.2)).flatten := by
  have hsome := List.filter_map (p := fun rows : List Row => !rows.isEmpty)
    (f := fun kept : PartId × List Row => kept.2) (l := (results.foldl keep ∅).toList)
  rw [Std.ExtTreeMap.toList_filter]
  refine Eq.trans ?_ (congrArg List.flatten hsome)
  exact List.flatten_filter_not_isEmpty.symm

/-- Partitions without rows can be left out. -/
theorem merge_filter {has : PartId → Bool} {results : List PartRows}
    (h : ∀ result ∈ results, has result.part = false → ∀ rows, result.outcome = .ok rows →
      rows = []) : merge (results.filter (has ·.part)) = merge results := by
  have hsame : ((results.filter (has ·.part)).foldl keep ∅).filter (fun _ rows => !rows.isEmpty) =
      (results.foldl keep ∅).filter fun _ rows => !rows.isEmpty := by
    apply Std.ExtTreeMap.ext_getElem?
    intro part
    rw [Std.ExtTreeMap.getElem?_filter, Std.ExtTreeMap.getElem?_filter, Option.pfilter_eq_filter,
      Option.pfilter_eq_filter, getElem?_keep_filter]
    split
    · rfl
    · next hpart =>
      cases hkept : (results.foldl keep ∅)[part]? with
      | none => rfl
      | some rows =>
        obtain ⟨result, hresult, rfl, houtcome⟩ := exists_of_keep hkept
        rw [h result hresult (Bool.eq_false_iff.2 hpart) rows houtcome]
        rfl
  rw [merge_eq, merge_eq, hsame]

/-- A partition is listed if what is found there is noticed. -/
theorem mem_failed_iff {unnoticed : Prop} {leader : PartId → Except EngineCode Host}
    {results : List PartRows} {part : PartId} (hpart : part ∈ results.map (·.part))
    (h : ∀ result ∈ results, result.part = part → FindsNothing unnoticed result.outcome) :
    part ∈ (collectFailures leader
      (results.map fun result => (result.part, result.code))).map (·.part) ↔ ¬ unnoticed := by
  rw [Tracker.mem_collectFailures]
  constructor
  · intro hlisted
    obtain ⟨code, hmem, hcode⟩ := hlisted
    obtain ⟨result, hresult, heq⟩ := List.mem_map.1 hmem
    cases heq
    exact (h result hresult rfl).code_ne_succeeded.1 hcode
  · intro hnoticed
    obtain ⟨result, hresult, heq⟩ := List.mem_map.1 hpart
    subst heq
    exact ⟨result.code, List.mem_map.2 ⟨result, hresult, rfl⟩,
      (h result hresult rfl).code_ne_succeeded.2 hnoticed⟩

end Lookup

namespace Node

variable {node : Node} {req : Lookup} {vidLen : Nat} {plan : Plan}

/-- Whether the store has a partition. -/
def has (node : Node) (space : SpaceId) (part : PartId) : Bool :=
  (node.store.parts[(⟨space, part⟩ : Address)]?).isSome

/-- What a lookup with a plan comes to. -/
theorem lookupInOrder_eq (hplan : req.plan node = .ok (vidLen, plan)) (order : List PartId) :
    node.lookupInOrder req order =
      let ran := Lookup.runParts (req.scope node vidLen) plan node.cache order
      ({ node with cache := ran.1 }, {
        result := {
          failed := collectFailures (node.leader req.space)
            (ran.2.map fun result => (result.part, result.code)) }
        data := {
          columns := resultColumns req.indices.isEdge req.returnColumns
          rows := Lookup.limited node.config.lookupMaxRows (Lookup.merge ran.2) } }) := by
  unfold lookupInOrder
  rw [hplan]
  dsimp only
  rw [reportParts_eq]
  rfl

/-- A partition that the store does not have is not there. -/
theorem parts_of_has_eq_false {space : SpaceId} {part : PartId}
    (h : node.has space part = false) : node.store.parts[(⟨space, part⟩ : Address)]? = none := by
  rwa [has, Option.isSome_eq_false_iff, Option.isNone_iff_eq_none] at h

/-- Partitions that the store does not have find nothing in a lookup. -/
theorem findsNothing_of_has_eq_false (hplan : req.plan node = .ok (vidLen, plan))
    {cache : Option VertexCache} {order : List PartId} {result : PartRows}
    (hresult : result ∈ (Lookup.runParts (req.scope node vidLen) plan cache order).2)
    (hpart : node.has req.space result.part = false) :
    FindsNothing (result.part ∉ node.down ∧ req.Void node.catalog) result.outcome := by
  obtain ⟨before, houtcome⟩ := Lookup.mem_runParts hresult
  rw [houtcome]
  exact (Lookup.go_of_missing hplan (parts_of_has_eq_false hpart) before).2

/-- A lookup is answered as if the partitions that the store does not have had not been asked for:
it has the same effect on the cache, gives the same data, and lists the same failures of the other
partitions. Of the missing ones it lists those that are down, and all if some query does not narrow
its index down to a void range. -/
theorem lookup_missing (hplan : req.plan node = .ok (vidLen, plan)) {order : List PartId}
    (horder : order.Perm req.parts) :
    let fewer := { req with parts := req.parts.filter (node.has req.space) }
    let answer := node.lookupInOrder req order
    let answer' := node.lookupInOrder fewer (order.filter (node.has req.space))
    (order.filter (node.has req.space)).Perm fewer.parts ∧
      answer.1 = answer'.1 ∧ answer.2.data = answer'.2.data ∧
      answer.2.result.requestCode = none ∧ answer'.2.result.requestCode = none ∧
      answer.2.result.failed.filter (node.has req.space ·.part) = answer'.2.result.failed ∧
      ∀ part ∈ req.parts, node.has req.space part = false →
        (part ∈ answer.2.result.failed.map (·.part) ↔
          part ∈ node.down ∨ ¬ req.Void node.catalog) := by
  intro fewer answer answer'
  have hanswer : answer = _ := lookupInOrder_eq hplan order
  have hanswer' : answer' = _ := @lookupInOrder_eq node fewer vidLen plan hplan _
  have hruns : Lookup.runParts (fewer.scope node vidLen) plan node.cache
      (order.filter (node.has req.space)) = _ :=
    Lookup.runParts_filter (fun part hpart cache =>
      (Lookup.go_of_missing hplan (parts_of_has_eq_false hpart) cache).1) node.cache order
  have hfindings : ∀ result ∈ (Lookup.runParts (req.scope node vidLen) plan node.cache order).2,
      node.has req.space result.part = false →
        FindsNothing (result.part ∉ node.down ∧ req.Void node.catalog) result.outcome :=
    fun _ hresult hpart => findsNothing_of_has_eq_false hplan hresult hpart
  have hparts := Lookup.parts_runParts (req.scope node vidLen) plan node.cache order
  rw [hruns] at hanswer'
  rw [hanswer, hanswer']
  dsimp only
  generalize (Lookup.runParts (req.scope node vidLen) plan node.cache order).2 = results
    at hfindings hparts ⊢
  refine ⟨horder.filter _, rfl, ?_, rfl, rfl, ?_, ?_⟩
  · have hrows : ∀ result ∈ results, node.has req.space result.part = false →
        ∀ rows, result.outcome = .ok rows → rows = [] := by
      intro result hresult hpart rows houtcome
      have hfinding := hfindings result hresult hpart
      rw [houtcome] at hfinding
      cases hfinding
      rfl
    rw [Lookup.merge_filter hrows]
  · rw [Tracker.filter_collectFailures (node.has req.space), List.filter_map]
    rfl
  · intro part hpart hhas
    rw [← horder.mem_iff, ← hparts] at hpart
    have hlisted := @Lookup.mem_failed_iff _ (node.leader req.space) _ _ hpart
      fun result hresult heq => heq ▸ hfindings result hresult (heq ▸ hhas)
    rw [hlisted, not_and_or, not_not]

/-- A lookup of which one query is not void lists the missing partition, and answers the other one
as if it were asked for alone. -/
theorem lookup_missing_people :
    let node := (fresh .people (.table []) {}).after [.addPart ⟨1, 1⟩ default, .addPerson "a" 7]
    let void : IndexQuery := { index := 5, hints := [⟨"age", .range (.int 9) (.int 3)⟩] }
    let req : Lookup := {
      space := 1
      parts := [7, 1]
      indices := { queries := [void, { index := 5 }], isEdge := false, schemaId := 3 }
      returnColumns := ["age"] }
    ¬ req.Void node.catalog ∧
      (node.lookup req).2.data = (node.lookup { req with parts := [1] }).2.data ∧
      (node.lookup req).2.data.rows = [[.str "a", .int 7]] ∧
      7 ∈ (node.lookup req).2.result.failed.map (·.part) := by
  intro node void req
  have hvoid : ¬ req.Void node.catalog := by
    intro h
    obtain ⟨index, -, hhints⟩ := h { index := 5 } (by simp [req])
    obtain ⟨-, hrange⟩ := hhints
    cases hrange
  have hbuilt : (req.plan node).map (·.1) = .ok 4 := by decide +kernel
  obtain ⟨⟨vidLen, plan⟩, hplan, rfl⟩ := map_eq_ok.1 hbuilt
  obtain ⟨-, -, hdata, -, -, -, hlisted⟩ := lookup_missing hplan (.refl req.parts)
  have hhas : req.parts.filter (node.has 1) = [1] := by decide +kernel
  refine ⟨hvoid, ?_, by decide +kernel, ?_⟩
  · rw [show req.space = 1 from rfl, hhas] at hdata
    exact hdata
  · exact (hlisted 7 (by decide) (by decide +kernel)).2 (.inr hvoid)

/-- A lookup narrowed down to the ages from five and below five says nothing about a partition that
the store does not have. -/
theorem void_range_hides_partition :
    let node := (fresh .people (.table []) {}).after [.addPart ⟨1, 1⟩ default, .addPerson "a" 7]
    let void : IndexQuery := { index := 5, hints := [⟨"age", .range (.int 5) (.int 5)⟩] }
    let req : Lookup := {
      space := 1
      parts := [1, 7]
      indices := { queries := [void], isEdge := false, schemaId := 3 } }
    (req.plan node).map (·.1) = .ok 4 ∧ node.has 1 7 = false ∧ node.down = [] ∧
      (node.lookup req).2.data = { columns := ["_vid"] } ∧
      (node.lookup req).2.result.failed = [] := by
  decide +kernel

end Node

end GraphStore
