import GraphStore.Mutation.ChainedEdges
import GraphStore.Proofs.Fanout.Units
import GraphStore.Proofs.Mutation.ChainOrder
import GraphStore.Proofs.Mutation.Splitting
import GraphStore.Proofs.Storage.Commute

/-!
# What chained inserts leave behind

A chain is a put into its source, which answers for all chains of a partition alike. A partition
therefore takes all of its chains, in the order in which they happen to be written, or none of them,
and it is listed exactly when it takes none.
-/

namespace GraphStore

namespace Node

/-- The node as chains see it: the chain writer does not ask whether a partition is down. -/
def forChains (node : Node) (atomic : Bool) : Node :=
  if atomic then { node with down := [] } else node

variable {node : Node} (space : SpaceId) (vidLen : Nat) (atomic : Bool)

/-- A chain is a put into its source. -/
theorem writeBatch_spec (hwriter : node.chainWriter = .toSource) (chain : ChainBatch) :
    (writeBatch space vidLen atomic node chain).2 =
        ((node.forChains atomic).writeCode space chain.chain.source).toErrorCode ∧
      SameSetting node (writeBatch space vidLen atomic node chain).1 ∧
      ∀ addr : Address, (writeBatch space vidLen atomic node chain).1.store.parts[addr]? =
        if addr = ⟨space, chain.chain.source⟩ ∧ (node.forChains atomic).Writable addr then
          node.store.parts[addr]?.map (·.put chain.batch)
        else node.store.parts[addr]? := by
  cases atomic with
  | false =>
    have hperform : writeBatch space vidLen false node chain =
        ((node.perform space chain.chain.source (.put chain.batch)).1,
          (node.perform space chain.chain.source (.put chain.batch)).2.toErrorCode) := rfl
    rw [hperform, perform_code]
    exact ⟨rfl, perform_sameSetting .., fun addr => perform_parts ..⟩
  | true =>
    -- The chain writer's put is the same write on a node without partitions that are down.
    have hup : chain.chain.source ∉ (node.forChains true).down := List.not_mem_nil
    have hperform := (node.forChains true).perform_code space chain.chain.source (.put chain.batch)
    have hsetting := (node.forChains true).perform_sameSetting space chain.chain.source
      (.put chain.batch)
    have hparts := (node.forChains true).perform_parts space chain.chain.source (.put chain.batch)
    have hstore : (node.forChains true).perform space chain.chain.source (.put chain.batch) =
        ({ node.forChains true with
            store := (node.store.multiPut ⟨space, chain.chain.source⟩ chain.batch).1 },
          (node.store.multiPut ⟨space, chain.chain.source⟩ chain.batch).2) := by
      rw [perform, if_neg hup]
      rfl
    have hbatch : writeBatch space vidLen true node chain =
        ({ node with
            store := (node.store.multiPut ⟨space, chain.chain.source⟩ chain.batch).1
            chainCalls := node.chainCalls.push
              { space, vidLen, chain := chain.chain, batch := chain.batch } },
          (node.store.multiPut ⟨space, chain.chain.source⟩ chain.batch).2.toErrorCode) := by
      simp only [writeBatch, writeChain, if_true, hwriter]
      rfl
    rw [hstore] at hperform hsetting hparts
    rw [hbatch]
    refine ⟨congrArg EngineCode.toErrorCode hperform, ?_, hparts⟩
    exact ⟨rfl, rfl, rfl, rfl, rfl, rfl, hsetting.leaders, hsetting.failures, hsetting.parts⟩

/-- Chains as nodes of the same setting see it are alike. -/
theorem forChains_sameSetting {other : Node} (h : SameSetting node other) (atomic : Bool) :
    SameSetting (node.forChains atomic) (other.forChains atomic) := by
  cases atomic with
  | false => exact h
  | true =>
    exact ⟨h.catalog, h.placement, h.chainWriter, h.cache, h.config, rfl, h.leaders, h.failures,
      h.parts⟩

/-- A chain does to the store what its put does. -/
theorem writeBatch_store (hwriter : node.chainWriter = .toSource) (chain : ChainBatch) :
    (writeBatch space vidLen atomic node chain).1.store =
      ((node.forChains atomic).perform space chain.chain.source (.put chain.batch)).1.store := by
  cases atomic with
  | false => rfl
  | true =>
    have hup : chain.chain.source ∉ (node.forChains true).down := List.not_mem_nil
    rw [perform_of_up _ space hup]
    simp only [writeBatch, writeChain, if_true, hwriter]
    rfl

/-- The writes of chains, in order. -/
def chainWrites (chains : List ChainBatch) : List (PartId × Write) :=
  chains.map fun chain => (chain.chain.source, .put chain.batch)

/-- Chains written in order do to the store what their puts do. -/
theorem writeInOrder_store (hwriter : node.chainWriter = .toSource) (order : List ChainBatch) :
    (writeInOrder (writeBatch space vidLen atomic) node order).1.store =
      ((node.forChains atomic).performAll space (chainWrites order)).store := by
  have hstore (node : Node) : (node.forChains atomic).store = node.store := by
    cases atomic <;> rfl
  induction order generalizing node with
  | nil => exact (hstore node).symm
  | cons chain order ih =>
    obtain ⟨-, hsetting, -⟩ := writeBatch_spec space vidLen atomic hwriter chain
    have hwrite := writeBatch_store space vidLen atomic hwriter chain
    rcases hafter : writeBatch space vidLen atomic node chain with ⟨after, code⟩
    rw [hafter] at hsetting hwrite
    rw [writeInOrder, hafter]
    refine (ih (hsetting.chainWriter.trans hwriter)).trans
      (performAll_store_congr ((hstore after).trans hwrite) ?_ space (chainWrites order))
    rw [(forChains_sameSetting hsetting atomic).down, (perform_sameSetting ..).down]

/-- The puts of chains into a partition, in order. -/
def putsOf (part : PartId) (chains : List ChainBatch) : List Write :=
  (chains.filter (·.chain.source = part)).map fun chain => .put chain.batch

/-- Puts one after another are one put. -/
theorem applyAll_map_put (chains : List ChainBatch) :
    Write.applyAll (chains.map fun chain => .put chain.batch) =
      fun p => p.put (chains.flatMap (·.batch)) := by
  funext p
  induction chains generalizing p with
  | nil => rfl
  | cons chain chains ih =>
    rw [List.flatMap_cons, Partition.put_append, ← ih]
    rfl

/-- Chains written in order are puts into their sources, answered for each source alike. -/
theorem writeInOrder_spec (hwriter : node.chainWriter = .toSource) (order : List ChainBatch) :
    (writeInOrder (writeBatch space vidLen atomic) node order).2 =
        order.map (fun chain => (chain.chain,
          ((node.forChains atomic).writeCode space chain.chain.source).toErrorCode)) ∧
      SameSetting node (writeInOrder (writeBatch space vidLen atomic) node order).1 ∧
      ∀ addr : Address,
        (writeInOrder (writeBatch space vidLen atomic) node order).1.store.parts[addr]? =
          if addr.space = space ∧ (node.forChains atomic).Writable addr then
            node.store.parts[addr]?.map (Write.applyAll (putsOf addr.part order))
          else node.store.parts[addr]? := by
  induction order generalizing node with
  | nil =>
    have hid : Write.applyAll [] = id := rfl
    refine ⟨rfl, .refl node, fun addr => ?_⟩
    simp [writeInOrder, putsOf, hid]
  | cons chain order ih =>
    obtain ⟨hcode, hsetting, hparts⟩ := writeBatch_spec space vidLen atomic hwriter chain
    rcases hwrite : writeBatch space vidLen atomic node chain with ⟨after, code⟩
    rw [hwrite] at hcode hsetting hparts
    dsimp only at hcode hsetting hparts
    obtain ⟨hcodes, hrest, hafter⟩ := ih (hsetting.chainWriter.trans hwriter)
    have hchains := forChains_sameSetting hsetting atomic
    rw [writeInOrder, hwrite]
    refine ⟨?_, hsetting.trans hrest, fun addr => ?_⟩
    · simp only [hcodes, hcode, hchains.writeCode, List.map_cons]
    · refine (hafter addr).trans ?_
      rw [hparts]
      simp only [hchains.writable_iff]
      by_cases hopen : addr.space = space ∧ (node.forChains atomic).Writable addr
      · obtain ⟨rfl, hwritable⟩ := hopen
        by_cases hsource : chain.chain.source = addr.part
        · have haddr : addr = ⟨addr.space, chain.chain.source⟩ := by rw [hsource]
          have hputs : putsOf addr.part (chain :: order) =
              .put chain.batch :: putsOf addr.part order := by
            simp [putsOf, hsource]
          rw [if_pos ⟨rfl, hwritable⟩, if_pos ⟨haddr, hwritable⟩, if_pos ⟨rfl, hwritable⟩, hputs,
            Option.map_map]
          rfl
        · have hne : addr ≠ ⟨addr.space, chain.chain.source⟩ := fun h =>
            hsource (congrArg Address.part h).symm
          have hputs : putsOf addr.part (chain :: order) = putsOf addr.part order := by
            simp [putsOf, hsource]
          rw [if_pos ⟨rfl, hwritable⟩, if_neg fun h => hne h.1, if_pos ⟨rfl, hwritable⟩, hputs]
      · have hne : ¬ (addr = ⟨space, chain.chain.source⟩ ∧ (node.forChains atomic).Writable addr) := by
          rintro ⟨rfl, h⟩
          exact hopen ⟨rfl, h⟩
        rw [if_neg hopen, if_neg hopen, if_neg hne]

end Node

namespace AddEdges

variable {req : AddEdges} {node : Node} {layout : SpaceLayout} {part : PartId}
  {edges : List NewEdge}

/-- The batch of a group has the rows and the index entries of its edges. -/
theorem mem_batch_ofGroup {edges : List ReadyEdge} {entry : Entry} :
    entry ∈ (Staged.ofGroup edges).batch ↔ ∃ edge ∈ edges, entry ∈ edge.row :: edge.indexEntries := by
  simp only [Staged.batch, Staged.ofGroup, List.mem_append, List.mem_map, List.mem_flatMap,
    List.mem_cons]
  constructor
  · rintro (⟨edge, hedge, rfl⟩ | ⟨edge, hedge, hentry⟩)
    · exact ⟨edge, hedge, .inl rfl⟩
    · exact ⟨edge, hedge, .inr hentry⟩
  · rintro ⟨edge, hedge, rfl | hentry⟩
    · exact .inl ⟨edge, hedge, rfl⟩
    · exact .inr ⟨edge, hedge, hentry⟩

/-- The chains of a partition have the rows and the index entries of its edges. -/
theorem mem_batch_chainsOf {ready : List ReadyEdge} {entry : Entry} :
    (∃ chain ∈ chainsOf part (Staged.ofEdges ready), entry ∈ chain.batch) ↔
      ∃ edge ∈ ready, entry ∈ edge.row :: edge.indexEntries := by
  constructor
  · rintro ⟨chain, hchain, hentry⟩
    obtain ⟨-, -, hbatch⟩ := mem_chainsOf.1 hchain
    obtain ⟨edge, hedge, hentry⟩ := mem_batch_ofGroup.1 (hbatch ▸ hentry)
    exact ⟨edge, (List.mem_filter.1 hedge).1, hentry⟩
  · rintro ⟨edge, hedge, hentry⟩
    have hmem : edge ∈ ready.filter (·.target = edge.target) :=
      List.mem_filter.2 ⟨hedge, decide_eq_true rfl⟩
    exact ⟨⟨⟨part, edge.target⟩, _⟩, mem_chainsOf.2 ⟨rfl, List.ne_nil_of_mem hmem, rfl⟩,
      mem_batch_ofGroup.2 ⟨edge, hmem, hentry⟩⟩

/-- Edges have chains if there are any. -/
theorem chainsOf_ne_nil {ready : List ReadyEdge} (hne : ready ≠ []) :
    chainsOf part (Staged.ofEdges ready) ≠ [] := by
  obtain ⟨edge, hedge⟩ := List.exists_mem_of_ne_nil ready hne
  obtain ⟨chain, hchain, -⟩ := mem_batch_chainsOf.2 ⟨edge, hedge, List.mem_cons_self⟩
  exact List.ne_nil_of_mem hchain

/-- The chains of a split that begin in a partition are those of its entry. -/
theorem filter_split_chains (hedges : req.parts[part]? = some edges) :
    (req.split node layout).chains.filter (·.chain.source = part) =
      node.edgeContext.chainsFor req layout (part, edges) :=
  EdgeContext.filter_split_chains hedges

/-- A partition that is not requested has no chains. -/
theorem filter_split_chains_absent (habsent : req.parts[part]? = none) :
    (req.split node layout).chains.filter (·.chain.source = part) = [] := by
  refine List.filter_eq_nil_iff.2 fun chain hchain hsource => ?_
  obtain ⟨edges, staged, hedges, -⟩ := EdgeContext.mem_split_chains.1 hchain
  rw [of_decide_eq_true hsource, habsent] at hedges
  cases hedges

/-- A split fails the partitions whose edges cannot be prepared. -/
theorem mem_split_failed {code : ErrorCode} : (part, code) ∈ (req.split node layout).failed ↔
    ∃ edges, req.parts[part]? = some edges ∧ req.stage node layout part edges = .error code :=
  EdgeContext.mem_split_failed

/-- What is looked up is there. -/
theorem mem_of_lookup_eq_some {α : Type} {entries : List (PartId × α)} {found : α}
    (h : entries.lookup part = some found) : (part, found) ∈ entries := by
  obtain ⟨before, after, rfl, -⟩ := List.lookup_eq_some_iff.1 h
  exact List.mem_append_right before List.mem_cons_self

/-- The failure of a split for a partition is that of its edges. -/
theorem lookup_split_failed (node : Node) (layout : SpaceLayout)
    (hedges : req.parts[part]? = some edges) :
    (req.split node layout).failed.lookup part =
      match req.stage node layout part edges with
      | .ok _ => none
      | .error code => some code := by
  have hmem (code : ErrorCode) : (part, code) ∈ (req.split node layout).failed ↔
      req.stage node layout part edges = .error code := EdgeContext.mem_split_failed_of hedges
  cases hlookup : (req.split node layout).failed.lookup part with
  | some code => rw [(hmem code).1 (mem_of_lookup_eq_some hlookup)]
  | none =>
    cases hstage : req.stage node layout part edges with
    | ok staged => rfl
    | error code =>
      have hne := List.lookup_eq_none_iff.1 hlookup _ ((hmem code).2 hstage)
      simp at hne

/-- A partition without failure has the code of one of its chains that was refused, or all of them
succeeded and so does the partition. -/
theorem partCode_cases {failed : List (PartId × ErrorCode)} (hfailed : failed.lookup part = none)
    (results : List (ChainId × ErrorCode)) :
    (∃ chain code, (chain, code) ∈ results ∧ chain.source = part ∧ code ≠ .succeeded ∧
        partCode failed results part = code) ∨
      (∀ chain code, (chain, code) ∈ results → chain.source = part → code = .succeeded) ∧
        partCode failed results part = .succeeded := by
  unfold partCode
  rw [hfailed]
  dsimp only
  split
  · next chain code hfind =>
    have hpred := List.find?_some hfind
    simp only [Bool.and_eq_true, decide_eq_true_eq, Bool.not_eq_true', ErrorCode.isOk,
      decide_eq_false_iff_not] at hpred
    exact .inl ⟨chain, code, List.mem_of_find?_eq_some hfind, hpred.1, hpred.2, rfl⟩
  · next hfind =>
    refine .inr ⟨fun chain code hmem hsource => ?_, rfl⟩
    have hpred := List.find?_eq_none.1 hfind (chain, code) hmem
    by_contra hcode
    exact hpred (by simp [hsource, ErrorCode.isOk, hcode])

/-- When the chains of each partition are answered alike, a partition without failure has the code
of its chains, if it has any. -/
theorem partCode_of_lookup_none {failed : List (PartId × ErrorCode)}
    (hfailed : failed.lookup part = none) (order : List ChainBatch) (codeOf : PartId → ErrorCode) :
    partCode failed (order.map fun chain => (chain.chain, codeOf chain.chain.source)) part ≠
        .succeeded ↔
      order.filter (·.chain.source = part) ≠ [] ∧ codeOf part ≠ .succeeded := by
  rcases partCode_cases hfailed (order.map fun chain => (chain.chain, codeOf chain.chain.source))
    with ⟨id, code, hresult, hsource, hcode, heq⟩ | ⟨hall, heq⟩
  · obtain ⟨chain, hchain, hid⟩ := List.mem_map.1 hresult
    cases hid
    subst hsource
    rw [heq]
    refine iff_of_true hcode ⟨?_, hcode⟩
    exact List.ne_nil_of_mem (List.mem_filter.2 ⟨hchain, decide_eq_true rfl⟩)
  · rw [heq]
    refine iff_of_false (fun h => h rfl) fun ⟨hne, hcode⟩ => ?_
    obtain ⟨chain, hchain⟩ := List.exists_mem_of_ne_nil _ hne
    obtain ⟨hmem, hsource⟩ := List.mem_filter.1 hchain
    obtain rfl : chain.chain.source = part := of_decide_eq_true hsource
    exact hcode (hall _ _ (List.mem_map_of_mem hmem) rfl)

/-- When the chains of each partition are answered alike, the order of the answers does not matter
for the code of a partition. -/
theorem partCode_perm (failed : List (PartId × ErrorCode))
    {results others : List (ChainId × ErrorCode)} (hresults : results.Perm others)
    (halike : ∀ a ∈ others, ∀ b ∈ others, a.1.source = b.1.source → a.2 = b.2) (part : PartId) :
    partCode failed results part = partCode failed others part := by
  cases hfailed : failed.lookup part with
  | some code =>
    unfold partCode
    rw [hfailed]
  | none =>
    rcases partCode_cases hfailed results with ⟨id, code, hmem, hsource, hcode, heq⟩ | ⟨hall, heq⟩
    · rw [hresults.mem_iff] at hmem
      rcases partCode_cases hfailed others with ⟨id', code', hmem', hsource', -, heq'⟩ | ⟨hall', -⟩
      · rw [heq, heq']
        exact halike _ hmem _ hmem' (hsource.trans hsource'.symm)
      · exact absurd (hall' id code hmem hsource) hcode
    · rcases partCode_cases hfailed others with ⟨id', code', hmem', hsource', hcode', -⟩ | ⟨-, heq'⟩
      · exact absurd (hall id' code' (hresults.mem_iff.2 hmem') hsource') hcode'
      · rw [heq, heq']

/-- A chain of a split is one of its partition's. -/
theorem exists_of_mem_split_chains {chain : ChainBatch}
    (h : chain ∈ (req.split node layout).chains) : ∃ edges staged,
      req.parts[chain.chain.source]? = some edges ∧
        req.stage node layout chain.chain.source edges = .ok staged ∧
        chain ∈ chainsOf chain.chain.source staged :=
  EdgeContext.mem_split_chains.1 h

end AddEdges

namespace Node

variable (node : Node) (req : AddEdges) (schedule : List Nat)

/-- Without a layout a chained insert lists every requested partition and changes nothing. -/
theorem addEdgesChained_of_error {code : ErrorCode}
    (hlayout : node.layout req.space true = .error code) :
    node.addEdgesChained req schedule =
      (node, {
        failed := collectFailures (node.leader req.space)
          (req.parts.keys.map fun part => (part, code)) }) := by
  rw [addEdgesChained, hlayout]
  exact reportParts_eq ..

/-- With a layout the chains of the request are written in some order, and each requested partition
is reported with its failure or with the answer to its chains. -/
theorem addEdgesChained_of_ok (hwriter : node.chainWriter = .toSource) {layout : SpaceLayout}
    (hlayout : node.layout req.space true = .ok layout) :
    ∃ order, order.Perm (req.split node layout).chains ∧
      (node.addEdgesChained req schedule).1 =
        (writeInOrder (writeBatch req.space layout.vidLen !layout.indexes.isEmpty) node order).1 ∧
      (node.addEdgesChained req schedule).2.failed = collectFailures (node.leader req.space)
        (req.parts.keys.map fun part => (part, partCode (req.split node layout).failed
          (order.map fun chain => (chain.chain, ((node.forChains !layout.indexes.isEmpty).writeCode
            req.space chain.chain.source).toErrorCode)) part)) := by
  obtain ⟨order, horder, hwrite⟩ := writeChains_eq_writeInOrder node.config.maxChainInflight
    schedule (writeBatch req.space layout.vidLen !layout.indexes.isEmpty) node
    (req.split node layout).chains
  obtain ⟨hcodes, hsetting, -⟩ := writeInOrder_spec req.space layout.vidLen
    (!layout.indexes.isEmpty) hwriter order
  have heq : node.addEdgesChained req schedule =
      (writeInOrder (writeBatch req.space layout.vidLen !layout.indexes.isEmpty) node order).1.reportParts
        req.space (req.parts.keys.map fun part => (part, partCode (req.split node layout).failed
          (writeInOrder (writeBatch req.space layout.vidLen !layout.indexes.isEmpty) node order).2
            part)) := by
    rw [addEdgesChained, hlayout]
    dsimp only
    rw [hwrite]
  rw [heq, reportParts_eq, hsetting.leader, hcodes]
  exact ⟨order, horder, rfl, rfl⟩

/-- One code for each requested partition lists those whose code is a failure. -/
theorem mem_collectFailures_keys {α : Type} (leader : PartId → Except EngineCode Host)
    (parts : PartMap α) (codeOf : PartId → ErrorCode) (part : PartId) :
    part ∈ (collectFailures leader (parts.keys.map fun part => (part, codeOf part))).map (·.part) ↔
      part ∈ parts ∧ codeOf part ≠ .succeeded := by
  rw [Tracker.mem_collectFailures]
  constructor
  · rintro ⟨code, hmem, hcode⟩
    obtain ⟨other, hother, heq⟩ := List.mem_map.1 hmem
    cases heq
    exact ⟨Std.ExtTreeMap.mem_keys.1 hother, hcode⟩
  · rintro ⟨hmem, hcode⟩
    exact ⟨_, List.mem_map.2 ⟨part, Std.ExtTreeMap.mem_keys.2 hmem, rfl⟩, hcode⟩

variable {node req} {layout : SpaceLayout} {part : PartId} {edges : List NewEdge}

/-- Chains into other partitions leave a partition as it is. -/
theorem addEdgesChained_parts_of_filter (hwriter : node.chainWriter = .toSource)
    (hlayout : node.layout req.space true = .ok layout) {addr : Address}
    (hnone : addr.space = req.space →
      (req.split node layout).chains.filter (·.chain.source = addr.part) = []) :
    (node.addEdgesChained req schedule).1.store.parts[addr]? = node.store.parts[addr]? := by
  obtain ⟨order, horder, hnode, -⟩ := node.addEdgesChained_of_ok req schedule hwriter hlayout
  obtain ⟨-, -, hparts⟩ := writeInOrder_spec req.space layout.vidLen (!layout.indexes.isEmpty)
    hwriter order
  rw [hnode, hparts]
  split
  · next h =>
    have hnil : order.filter (·.chain.source = addr.part) = [] :=
      List.perm_nil.1 (hnone h.1 ▸ horder.filter _)
    have hid : Write.applyAll [] = id := rfl
    rw [putsOf, hnil, List.map_nil, hid, Option.map_id]
    rfl
  · rfl

/-- A partition that is not requested keeps its content and is not listed. -/
theorem addEdgesChained_absent (hwriter : node.chainWriter = .toSource)
    (hlayout : node.layout req.space true = .ok layout) (habsent : req.parts[part]? = none) :
    (node.addEdgesChained req schedule).1.store.parts[(⟨req.space, part⟩ : Address)]? =
        node.store.parts[(⟨req.space, part⟩ : Address)]? ∧
      part ∉ (node.addEdgesChained req schedule).2.failed.map (·.part) := by
  refine ⟨addEdgesChained_parts_of_filter schedule hwriter hlayout fun _ =>
    AddEdges.filter_split_chains_absent habsent, fun hlisted => ?_⟩
  obtain ⟨order, -, -, hfailed⟩ := node.addEdgesChained_of_ok req schedule hwriter hlayout
  rw [hfailed, mem_collectFailures_keys] at hlisted
  obtain ⟨edges, hedges⟩ := PartMap.mem_iff_getElem?.1 hlisted.1
  cases habsent.symm.trans hedges

/-- A partition whose edges cannot be prepared keeps its content and is listed, unless the failure
is called a success. -/
theorem addEdgesChained_refused (hwriter : node.chainWriter = .toSource)
    (hlayout : node.layout req.space true = .ok layout) (hedges : req.parts[part]? = some edges)
    {code : ErrorCode} (hstage : req.stage node layout part edges = .error code) :
    (node.addEdgesChained req schedule).1.store.parts[(⟨req.space, part⟩ : Address)]? =
        node.store.parts[(⟨req.space, part⟩ : Address)]? ∧
      (part ∈ (node.addEdgesChained req schedule).2.failed.map (·.part) ↔ code ≠ .succeeded) := by
  constructor
  · refine addEdgesChained_parts_of_filter schedule hwriter hlayout fun _ => ?_
    rw [AddEdges.filter_split_chains hedges, EdgeContext.chainsFor_of_error hstage]
  · obtain ⟨order, -, -, hfailed⟩ := node.addEdgesChained_of_ok req schedule hwriter hlayout
    have hlookup := AddEdges.lookup_split_failed node layout hedges
    rw [hstage] at hlookup
    have hmem : part ∈ req.parts := PartMap.mem_iff_getElem?.2 ⟨edges, hedges⟩
    rw [hfailed, mem_collectFailures_keys, partCode, hlookup]
    exact and_iff_right hmem

/-- A partition takes its chains in some order, if nothing keeps writes from it, and is listed when
they are refused. -/
theorem addEdgesChained_prepared (hwriter : node.chainWriter = .toSource)
    (hlayout : node.layout req.space true = .ok layout) (hedges : req.parts[part]? = some edges)
    {staged : PartMap Staged} (hstage : req.stage node layout part edges = .ok staged) :
    ∃ order, order.Perm (AddEdges.chainsOf part staged) ∧
      (node.addEdgesChained req schedule).1.store.parts[(⟨req.space, part⟩ : Address)]? =
        (if (node.forChains !layout.indexes.isEmpty).Writable ⟨req.space, part⟩ then
          node.store.parts[(⟨req.space, part⟩ : Address)]?.map (·.put (order.flatMap (·.batch)))
        else node.store.parts[(⟨req.space, part⟩ : Address)]?) ∧
      (part ∈ (node.addEdgesChained req schedule).2.failed.map (·.part) ↔
        order ≠ [] ∧
          (node.forChains !layout.indexes.isEmpty).writeCode req.space part ≠ .succeeded) := by
  obtain ⟨order, horder, hnode, hfailed⟩ := node.addEdgesChained_of_ok req schedule hwriter hlayout
  obtain ⟨-, -, hparts⟩ := writeInOrder_spec req.space layout.vidLen (!layout.indexes.isEmpty)
    hwriter order
  have hlookup := AddEdges.lookup_split_failed node layout hedges
  rw [hstage] at hlookup
  have hchains := horder.filter (·.chain.source = part)
  rw [AddEdges.filter_split_chains hedges, EdgeContext.chainsFor_of_ok hstage] at hchains
  refine ⟨order.filter (·.chain.source = part), hchains, ?_, ?_⟩
  · rw [hnode, hparts]
    simp only [true_and]
    rw [putsOf, applyAll_map_put]
  · have hmem : part ∈ req.parts := PartMap.mem_iff_getElem?.2 ⟨edges, hedges⟩
    rw [hfailed, mem_collectFailures_keys, AddEdges.partCode_of_lookup_none hlookup order fun source =>
      ((node.forChains !layout.indexes.isEmpty).writeCode req.space source).toErrorCode,
      and_iff_right hmem, Ne, Ne, Ne, EngineCode.toErrorCode_eq_succeeded]

end Node

end GraphStore
