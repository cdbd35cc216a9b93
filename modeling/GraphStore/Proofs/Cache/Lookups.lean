import GraphStore.Proofs.Cache.Coherence
import GraphStore.Proofs.Cache.Uncached
import GraphStore.Proofs.Query.Hits

/-!
# Lookups with and without a cache

A lookup finds the same rows with a coherent cache as without any, and leaves the cache coherent. The
hits that it passes from operator to operator are of vertices at home in the partition it looks at, so
a cached row stands for the row that would be read.
-/

namespace GraphStore

/-- Whether a hit in a partition, if it is of a vertex, is of one at home there. -/
def Candidate.AtHome (homes : Homes) (addr : Address) (hit : Candidate) : Prop :=
  ∀ vid, hit.entity = .vertex vid → homes.Holds addr vid

/-- Whether all hits among what operators hand on are at home. -/
def Flow.AtHome (homes : Homes) (addr : Address) : Flow → Prop
  | candidates hits => ∀ hit ∈ hits, hit.AtHome homes addr
  | rows _ => True

namespace QueryScope

/-- The scope of the same lookup on the node without its cache. -/
def uncached (extra : Nat) (scope : QueryScope) : QueryScope :=
  { scope with node := scope.node.uncached extra }

/-- A node to look rows up on: its partitions can be read and hold their own vertices only, under a
catalog as registered. -/
structure Ready (homes : Homes) (scope : QueryScope) : Prop where
  registered : scope.node.catalog.Registered
  vidLen_eq : scope.node.catalog.vidLen scope.space = .ok scope.vidLen
  down_eq : scope.node.down = []
  housed : scope.node.Housed homes

variable {scope : QueryScope} {homes : Homes} {part : PartId} {cache : Option VertexCache}
  {layout : IndexLayout} {hints : List ColumnHint}

/-- What a scan finds is at home. -/
theorem Ready.scan_atHome (h : scope.Ready homes)
    (hknown : (Operator.scan layout hints).Known scope.node.catalog scope.space scope.vidLen)
    {hits : List Candidate} (hscan : scope.scan part layout hints = .ok hits) :
    ∀ hit ∈ hits, hit.AtHome homes ⟨scope.space, part⟩ := by
  intro hit hhit vid hentity
  obtain ⟨index, width⟩ := layout
  obtain ⟨rfl, id, hid⟩ := hknown
  obtain ⟨p, hp, hmem, hstart, hdecode⟩ := mem_scan hscan hhit
  rw [hentity] at hdecode
  obtain ⟨row, hrow, hkey | hkey⟩ := h.housed ⟨scope.space, part⟩ p scope.vidLen hp h.vidLen_eq _ hmem
  · exact absurd (IndexLayout.head?_of_indexStem_prefix hstart) (Site.head?_of_rowKey hkey)
  -- The key is an entry of the index that is scanned, so its entity is that of its row.
  obtain ⟨other, props, ⟨howner, id', hid'⟩, hentry⟩ := hkey
  have hkey := Site.encodeKey_of_entryKey hentry
  have hstem := IndexLayout.indexStem_prefix hkey
  obtain rfl : index = other := h.registered.eq_of_stem hid hid' hstart hstem
  cases row with
  | tag other tag =>
    have hvid := IndexLayout.entity_of_decodeKey_vertex hrow.1 hkey hdecode
    rw [Entity.vertex.inj hvid]
    exact hrow
  | edge edge =>
    have hedge := IndexLayout.entity_of_decodeKey hdecode
    have howner : index.owner = .edge edge.edgeType := howner
    unfold IndexLayout.decodeEntity at hedge
    rw [howner] at hedge
    cases hedge

/-- The stored row of a vertex is what is read for it. -/
theorem Ready.storedVertexRow_eq_ok (h : scope.Ready homes) {vid : VertexId} {raw : Bytes} :
    scope.storedVertexRow part vid = .ok (some raw) ↔
      scope.node.Stores ⟨scope.space, part⟩ (.tag vid scope.schemaId) raw := by
  have hup : part ∉ scope.node.down := by
    rw [h.down_eq]
    exact List.not_mem_nil
  constructor
  · intro hread
    obtain ⟨key, hkey, hread⟩ := bind_eq_ok.1 hread
    obtain ⟨p, hp, hraw⟩ := Node.of_reading_read (mapError_eq_ok.1 hread)
    exact ⟨scope.vidLen, p, key, h.vidLen_eq, hp, hkey, hraw⟩
  · rintro ⟨vidLen, p, key, hvidLen, hp, hkey, hraw⟩
    obtain rfl := Except.ok.inj (h.vidLen_eq.symm.trans hvidLen)
    refine bind_eq_ok.2 ⟨key, hkey, mapError_eq_ok.2 ?_⟩
    rw [Node.get, Node.reading, if_neg hup, Store.get, Store.read, hp]
    exact congrArg Except.ok hraw

/-- The row of a vertex at home is the same with a cache as without, and the cache stays backed. -/
theorem Ready.vertexRow (h : scope.Ready homes) (hbacks : scope.node.Backs homes cache)
    {vid : VertexId} (hvid : homes.Holds ⟨scope.space, part⟩ vid) :
    (scope.vertexRow part vid cache).2 = scope.storedVertexRow part vid ∧
      scope.node.Backs homes (scope.vertexRow part vid cache).1 := by
  cases cache with
  | none => exact ⟨rfl, hbacks⟩
  | some rows =>
    have hread := rows.get_snd ⟨scope.space, vid, scope.schemaId⟩
    have hafter := rows.row?_get ⟨scope.space, vid, scope.schemaId⟩
    rcases hget : rows.get ⟨scope.space, vid, scope.schemaId⟩ with ⟨after, found⟩
    rw [hget] at hread hafter
    have hkept : scope.node.Backs homes (some after) := by
      intro other key raw hother hraw
      cases hother
      exact hbacks rows key raw rfl ((hafter key).symm.trans hraw)
    unfold QueryScope.vertexRow
    dsimp only
    rw [hget]
    cases found with
    | some raw =>
      obtain ⟨-, hstored⟩ := hbacks rows _ raw rfl hread.symm
      dsimp only at hstored
      rw [hvid.2] at hstored
      exact ⟨(h.storedVertexRow_eq_ok.2 hstored).symm, hkept⟩
    | none =>
      dsimp only
      split
      · next raw hstored =>
        refine ⟨hstored.symm, fun other key found hother hrow => ?_⟩
        cases hother
        rcases VertexCache.row?_insert hrow with ⟨rfl, rfl⟩ | hrow
        · refine ⟨hvid.1, ?_⟩
          dsimp only
          rw [hvid.2]
          exact h.storedVertexRow_eq_ok.1 hstored
        · exact hkept after key found rfl hrow
      · exact ⟨rfl, hkept⟩

variable (extra : Nat)

/-- Joining hits at home gives the same with a cache as without, and hands on hits at home. -/
theorem Ready.join (h : scope.Ready homes) (schema : Schema) {hits : List Candidate}
    (hhits : ∀ hit ∈ hits, hit.AtHome homes ⟨scope.space, part⟩)
    (hbacks : scope.node.Backs homes cache) :
    (scope.uncached extra).join part schema none hits =
        (none, (scope.join part schema cache hits).2) ∧
      scope.node.Backs homes (scope.join part schema cache hits).1 ∧
      ∀ joined, (scope.join part schema cache hits).2 = .ok joined →
        ∀ hit ∈ joined, hit.AtHome homes ⟨scope.space, part⟩ := by
  induction hits generalizing cache with
  | nil =>
    refine ⟨rfl, hbacks, fun joined hjoined => ?_⟩
    cases hjoined
    exact nofun
  | cons hit hits ih =>
    have hentity : (scope.uncached extra).entityRow part none hit.entity =
          (none, (scope.entityRow part cache hit.entity).2) ∧
        scope.node.Backs homes (scope.entityRow part cache hit.entity).1 := by
      cases heq : hit.entity with
      | edge edge => exact ⟨rfl, hbacks⟩
      | vertex vid =>
        obtain ⟨hsame, hkept⟩ := h.vertexRow hbacks (hhits hit List.mem_cons_self vid heq)
        exact ⟨Prod.ext rfl hsame.symm, hkept⟩
    obtain ⟨hsame, hkept⟩ := hentity
    rcases hrow : scope.entityRow part cache hit.entity with ⟨after, result⟩
    rw [hrow] at hsame hkept
    unfold QueryScope.join
    rw [hsame, hrow]
    cases result with
    | error code => exact ⟨rfl, hkept, nofun⟩
    | ok raw =>
      obtain ⟨hrest, hbacked, hothers⟩ := ih
        (fun other hother => hhits other (List.mem_cons_of_mem _ hother)) hkept
      dsimp only
      rw [hrest]
      refine ⟨rfl, hbacked, fun joined hjoined => ?_⟩
      obtain ⟨others, hok, rfl⟩ := map_eq_ok.1 hjoined
      intro other hother
      rcases List.mem_append.1 hother with hother | hother
      · -- A joined hit is of the same entity.
        have hentity : other.entity = hit.entity := by
          unfold joined? at hother
          obtain ⟨raw, -, hmade⟩ := Option.bind_eq_some_iff.1 (Option.mem_toList.1 hother)
          split at hmade
          · cases hmade
            rfl
          · cases hmade
        intro vid hvid
        exact hhits hit List.mem_cons_self vid (hentity.symm.trans hvid)
      · exact hothers others hok other hother

end QueryScope

section Run

variable {scope : QueryScope} {homes : Homes} {part : PartId} {cache : Option VertexCache}
  (extra : Nat)

/-- An operator gives the same with a cache as without, and hands on hits at home. -/
theorem Operator.run_uncached (h : scope.Ready homes) {op : Operator}
    (hknown : op.Known scope.node.catalog scope.space scope.vidLen) {inputs : List Flow}
    (hinputs : ∀ flow ∈ inputs, flow.AtHome homes ⟨scope.space, part⟩)
    (hbacks : scope.node.Backs homes cache) :
    op.run (scope.uncached extra) part none inputs = (none, (op.run scope part cache inputs).2) ∧
      scope.node.Backs homes (op.run scope part cache inputs).1 ∧
      ∀ flow, (op.run scope part cache inputs).2 = .ok flow →
        flow.AtHome homes ⟨scope.space, part⟩ := by
  have honly {hits : List Candidate} (hhits : Flow.onlyCandidates inputs = .ok hits) :
      ∀ hit ∈ hits, hit.AtHome homes ⟨scope.space, part⟩ := by
    unfold Flow.onlyCandidates at hhits
    split at hhits
    · cases hhits
      exact hinputs _ (List.mem_singleton_self _)
    · cases hhits
  cases op with
  | scan layout hints =>
    refine ⟨rfl, hbacks, fun flow hflow => ?_⟩
    obtain ⟨hits, hhits, rfl⟩ := map_eq_ok.1 hflow
    exact h.scan_atHome hknown hhits
  | join onEdges schema =>
    unfold Operator.run
    cases hhits : Flow.onlyCandidates inputs with
    | error code => exact ⟨rfl, hbacks, nofun⟩
    | ok hits =>
      obtain ⟨hsame, hkept, hjoined⟩ := h.join extra schema (honly hhits) hbacks
      dsimp only
      rw [hsame]
      refine ⟨rfl, hkept, fun flow hflow => ?_⟩
      obtain ⟨joined, hok, rfl⟩ := map_eq_ok.1 hflow
      exact hjoined joined hok
  | filter condition source =>
    refine ⟨rfl, hbacks, fun flow hflow => ?_⟩
    obtain ⟨hits, hhits, rfl⟩ := map_eq_ok.1 hflow
    exact fun hit hhit => honly hhits hit (List.mem_filter.1 hhit).1
  | output layout columns =>
    refine ⟨rfl, hbacks, fun flow hflow => ?_⟩
    obtain ⟨hits, -, rfl⟩ := map_eq_ok.1 hflow
    trivial
  | aggregate =>
    refine ⟨rfl, hbacks, fun flow hflow => ?_⟩
    obtain ⟨rows, -, rfl⟩ := map_eq_ok.1 hflow
    trivial

namespace Plan

variable {plan : Plan}

/-- A node of a plan gives the same with a cache as without, and hands on hits at home. -/
theorem execute_uncached (h : scope.Ready homes) {node : PlanNode}
    (hknown : node.operator.Known scope.node.catalog scope.space scope.vidLen) {outputs : Outputs}
    (houtputs : ∀ flow, some flow ∈ outputs → flow.AtHome homes ⟨scope.space, part⟩)
    (hbacks : scope.node.Backs homes cache) :
    execute (scope.uncached extra) part node outputs none =
        (none, (execute scope part node outputs cache).2) ∧
      scope.node.Backs homes (execute scope part node outputs cache).1 ∧
      ∀ flow, (execute scope part node outputs cache).2 = .ok flow →
        flow.AtHome homes ⟨scope.space, part⟩ := by
  unfold execute
  cases hinputs : inputs outputs node.deps with
  | error code => exact ⟨rfl, hbacks, nofun⟩
  | ok flows =>
    refine Operator.run_uncached extra h hknown (fun flow hflow => ?_) hbacks
    obtain ⟨dep, -, hdep⟩ := exists_of_forall₂_right (mapM_eq_ok.1 hinputs) hflow
    split at hdep
    · next found hfound =>
      cases hdep
      exact houtputs flow (List.mem_of_getElem? (Option.join_eq_some_iff.1 hfound))
    · cases hdep

/-- A run of a plan's nodes leaves the same behind with a cache as without. -/
theorem runInOrder_uncached (h : scope.Ready homes)
    (hknown : plan.Known scope.node.catalog scope.space scope.vidLen) (order : List Nat)
    {outputs : Outputs}
    (houtputs : ∀ flow, some flow ∈ outputs → flow.AtHome homes ⟨scope.space, part⟩)
    (hbacks : scope.node.Backs homes cache) (rows : List Row) :
    runInOrder (scope.uncached extra) part plan order outputs none rows =
        { runInOrder scope part plan order outputs cache rows with cache := none } ∧
      scope.node.Backs homes (runInOrder scope part plan order outputs cache rows).cache := by
  induction order generalizing outputs cache rows with
  | nil => exact ⟨rfl, hbacks⟩
  | cons id order ih =>
    unfold runInOrder
    cases hnode : plan.nodes[id]? with
    | none => exact ⟨rfl, hbacks⟩
    | some node =>
      obtain ⟨hsame, hkept, hflow⟩ :=
        execute_uncached extra h (hknown node (List.mem_of_getElem? hnode)) houtputs hbacks
      dsimp only
      rw [hsame]
      rcases hrun : execute scope part node outputs cache with ⟨after, result⟩
      rw [hrun] at hkept hflow
      cases result with
      | error code => exact ⟨rfl, hkept⟩
      | ok flow =>
        refine ih (fun found hfound => ?_) hkept _
        rcases List.mem_or_eq_of_mem_set hfound with hold | hnew
        · exact houtputs found hold
        · cases hnew
          exact hflow flow rfl

/-- A run of a plan on a partition leaves the same behind with a cache as without. -/
theorem go_uncached (h : scope.Ready homes)
    (hknown : plan.Known scope.node.catalog scope.space scope.vidLen)
    (hbacks : scope.node.Backs homes cache) :
    plan.go (scope.uncached extra) part none = { plan.go scope part cache with cache := none } ∧
      scope.node.Backs homes (plan.go scope part cache).cache := by
  refine runInOrder_uncached extra h hknown _ (fun flow hflow => ?_) hbacks []
  obtain ⟨node, -, hnone⟩ := List.mem_map.1 hflow
  cases hnone

end Plan

/-- A lookup finds the same on every partition with a cache as without. -/
theorem Lookup.runParts_uncached (h : scope.Ready homes) {plan : Plan}
    (hknown : plan.Known scope.node.catalog scope.space scope.vidLen) (parts : List PartId)
    (hbacks : scope.node.Backs homes cache) :
    runParts (scope.uncached extra) plan none parts = (none, (runParts scope plan cache parts).2) ∧
      scope.node.Backs homes (runParts scope plan cache parts).1 := by
  induction parts generalizing cache with
  | nil => exact ⟨rfl, hbacks⟩
  | cons part parts ih =>
    obtain ⟨hsame, hkept⟩ := plan.go_uncached extra h hknown hbacks
    obtain ⟨hrest, hbacked⟩ := ih hkept
    unfold runParts
    dsimp only
    rw [hsame, hrest]
    exact ⟨rfl, hbacked⟩

end Run

/-- A lookup on a node with a coherent cache is the lookup on the node without its cache, and leaves
the cache coherent. -/
theorem Node.lookupInOrder_uncached (extra : Nat) {node : Node} {homes : Homes} {catalog : Catalog}
    (hsteady : node.Steady catalog) (hregistered : catalog.Registered)
    (hhoused : node.Housed homes) (hcoherent : node.Coherent homes) (req : Lookup)
    (order : List PartId) :
    (node.uncached extra).lookupInOrder req order =
        ((node.lookupInOrder req order).1.uncached extra, (node.lookupInOrder req order).2) ∧
      (node.lookupInOrder req order).1.Coherent homes := by
  have hplan : req.plan (node.uncached extra) = req.plan node := rfl
  unfold lookupInOrder
  rw [hplan]
  cases hmade : req.plan node with
  | error code =>
    dsimp only
    rw [reportParts_uncached]
    refine ⟨rfl, ?_⟩
    rw [reportParts_eq]
    exact hcoherent
  | ok found =>
    obtain ⟨vidLen, plan⟩ := found
    obtain ⟨hvidLen, hbuild⟩ := Lookup.plan_eq_ok.1 hmade
    have hknown := Plan.known_of_build hbuild
    have hready : (req.scope node vidLen).Ready homes := by
      refine ⟨?_, hvidLen, hsteady.down_eq, hhoused⟩
      obtain rfl := hsteady.catalog_eq
      exact hregistered
    obtain ⟨hsame, hbacked⟩ := Lookup.runParts_uncached extra hready hknown order hcoherent
    have hscope : req.scope (node.uncached extra) vidLen = (req.scope node vidLen).uncached extra := rfl
    have hnone : (node.uncached extra).cache = none := rfl
    dsimp only
    rw [hscope, hnone, hsame]
    simp only [reportParts_eq]
    exact ⟨rfl, hbacked⟩

end GraphStore
