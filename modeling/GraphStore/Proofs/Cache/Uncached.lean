import GraphStore.Mutation.Edges
import GraphStore.Mutation.Update
import GraphStore.Mutation.Vertices
import GraphStore.Proofs.Mutation.Chains

/-!
# A node without its cache

What a node does to its store does not depend on its cache, and the number of removals it has counted
is read nowhere. A step of a node without its cache is therefore the step of the node itself, cache
aside, for every request but lookups and deletions of vertices.
-/

namespace GraphStore

/-- The store after more removals that changed nothing. -/
def Store.moreRemovals (extra : Nat) (s : Store) : Store :=
  { s with removeCalls := s.removeCalls + extra }

/-- The node without its cache, after more removals that changed nothing. -/
def Node.uncached (extra : Nat) (node : Node) : Node :=
  { node with
    store := node.store.moreRemovals extra
    cache := none
    config := { node.config with vertexCacheCapacity := 0 } }

/-- A write does not depend on how many removals there were. -/
theorem Store.write_moreRemovals (extra : Nat) (s : Store) (addr : Address)
    (change : Partition → Partition) :
    (s.moreRemovals extra).write addr change =
      ((s.write addr change).1.moreRemovals extra, (s.write addr change).2) := by
  have hfailures : (s.moreRemovals extra).failures = s.failures := rfl
  have hparts : (s.moreRemovals extra).parts = s.parts := rfl
  unfold write
  rw [hfailures, hparts]
  cases s.failures[addr]? with
  | some code => rfl
  | none => cases s.parts[addr]? <;> rfl

namespace Node

variable (extra : Nat) (node : Node) (space : SpaceId)

/-- A write does not depend on the cache. -/
theorem perform_uncached (part : PartId) (write : Write) :
    (node.uncached extra).perform space part write =
      ((node.perform space part write).1.uncached extra, (node.perform space part write).2) := by
  have hdown : (node.uncached extra).down = node.down := rfl
  have hremoval : { node.store.moreRemovals extra with
      removeCalls := (node.store.moreRemovals extra).removeCalls + 1 } =
        { node.store with removeCalls := node.store.removeCalls + 1 }.moreRemovals extra := by
    simp only [Store.moreRemovals, Nat.add_right_comm]
  have hput : { node.store.moreRemovals extra with
      putCalls := (node.store.moreRemovals extra).putCalls + 1 } =
        { node.store with putCalls := node.store.putCalls + 1 }.moreRemovals extra := rfl
  have hstore : (node.uncached extra).store = node.store.moreRemovals extra := rfl
  unfold perform
  rw [hdown]
  split
  · rfl
  · cases write with
    | put batch =>
      simp only [hstore, Store.multiPut, hput, Store.write_moreRemovals]
      rfl
    | remove keys =>
      simp only [hstore, Store.multiRemove, hremoval, Store.write_moreRemovals]
      rfl
    | removeRange start stop =>
      simp only [hstore, Store.removeRange, hremoval, Store.write_moreRemovals]
      rfl
    | replace removes puts =>
      simp only [hstore, Store.atomicWrite, hput, Store.write_moreRemovals]
      rfl

/-- Writes one after another do not depend on the cache. -/
theorem performAll_uncached (writes : List (PartId × Write)) :
    (node.uncached extra).performAll space writes =
      (node.performAll space writes).uncached extra := by
  induction writes generalizing node with
  | nil => rfl
  | cons entry writes ih =>
    have hstep (other : Node) : other.performAll space (entry :: writes) =
        (other.perform space entry.1 entry.2).1.performAll space writes := rfl
    rw [hstep, hstep, perform_uncached, ih]

/-- Units of work do not depend on the cache. -/
theorem runUnits_uncached (units : List WorkUnit) :
    (node.uncached extra).runUnits space units =
      ((node.runUnits space units).1.uncached extra, (node.runUnits space units).2) := by
  rw [runUnits_eq, runUnits_eq, performAll_uncached]
  rfl

/-- Reports do not depend on the cache. -/
theorem reportParts_uncached (reports : List (PartId × ErrorCode)) :
    (node.uncached extra).reportParts space reports =
      ((node.reportParts space reports).1.uncached extra, (node.reportParts space reports).2) :=
  runUnits_uncached ..

/-- Evictions are lost on a node without its cache. -/
theorem uncached_evict (keys : List CacheKey) :
    (node.evict keys).uncached extra = node.uncached extra := rfl

/-- Inserting vertices does not depend on the cache. -/
theorem addVertices_uncached (req : AddVertices) :
    (node.uncached extra).addVertices req =
      ((node.addVertices req).1.uncached extra, (node.addVertices req).2) := by
  have hplain : (node.uncached extra).addVertices req = (node.uncached extra).runUnits req.space
      (unitsOf (node.layout req.space false) req.parts (req.prepare node)) := rfl
  rw [hplain, addVertices]
  split
  · rw [← uncached_evict, runUnits_uncached]
  · rw [runUnits_uncached]

/-- Inserting edges does not depend on the cache. -/
theorem addEdges_uncached (req : AddEdges) :
    (node.uncached extra).addEdges req =
      ((node.addEdges req).1.uncached extra, (node.addEdges req).2) :=
  runUnits_uncached extra node req.space _

/-- Deleting edges does not depend on the cache. -/
theorem deleteEdges_uncached (req : DeleteEdges) :
    (node.uncached extra).deleteEdges req =
      ((node.deleteEdges req).1.uncached extra, (node.deleteEdges req).2) :=
  runUnits_uncached extra node req.space _

/-- Updating a vertex does not depend on the cache. -/
theorem updateVertex_uncached (req : UpdateVertex) :
    (node.uncached extra).updateVertex req =
      ((node.updateVertex req).1.uncached extra, (node.updateVertex req).2) := by
  have hprepare : req.prepare (node.uncached extra) = req.prepare node := rfl
  unfold updateVertex
  rw [hprepare]
  split
  · rfl
  · rfl
  · next removes puts props inserted _ =>
    have hevict : (node.uncached extra).evict
        [{ space := req.space, vid := req.vertex, tag := req.tag }] =
          (node.evict [{ space := req.space, vid := req.vertex, tag := req.tag }]).uncached extra := rfl
    simp only [Session.perform, Session.writeNow, Session.start, hevict, perform_uncached]
    rfl

variable {node}

/-- A chain does not depend on the cache. -/
theorem writeBatch_uncached (hwriter : node.chainWriter = .toSource) (vidLen : Nat) (atomic : Bool)
    (chain : ChainBatch) :
    writeBatch space vidLen atomic (node.uncached extra) chain =
      ((writeBatch space vidLen atomic node chain).1.uncached extra,
        (writeBatch space vidLen atomic node chain).2) := by
  cases atomic with
  | false =>
    simp only [writeBatch, perform_uncached]
    rfl
  | true =>
    have hput : { node.store.moreRemovals extra with
        putCalls := (node.store.moreRemovals extra).putCalls + 1 } =
          { node.store with putCalls := node.store.putCalls + 1 }.moreRemovals extra := rfl
    have hsame : (node.uncached extra).chainWriter = .toSource := hwriter
    have hstore : (node.uncached extra).store = node.store.moreRemovals extra := rfl
    simp only [writeBatch, writeChain, if_true, hwriter, hsame, hstore, ChainWriter.toSource,
      Store.multiPut, hput, Store.write_moreRemovals]
    rfl

end Node

/-- Chains that are written alike before and after a change of the state come to the same. -/
theorem ChainQueue.run_map {σ : Type} (f : σ → σ) (Inv : σ → Prop)
    (write : σ → ChainBatch → σ × ErrorCode)
    (hwrite : ∀ state chain, Inv state → write (f state) chain =
      (f (write state chain).1, (write state chain).2) ∧ Inv (write state chain).1)
    (limit fuel : Nat) (schedule : List Nat) {state : σ} (hstate : Inv state) (q : ChainQueue) :
    run limit write fuel schedule (f state) q =
      (f (run limit write fuel schedule state q).1, (run limit write fuel schedule state q).2) := by
  induction fuel generalizing schedule state q with
  | zero => rfl
  | succ fuel ih =>
    unfold run
    dsimp only
    split
    · rfl
    · next next _ =>
      obtain ⟨hmap, hinv⟩ := hwrite state next hstate
      rw [hmap]
      exact ih schedule.tail hinv _

/-- Inserting edges through chains does not depend on the cache. -/
theorem Node.addEdgesChained_uncached (extra : Nat) {node : Node}
    (hwriter : node.chainWriter = .toSource) (req : AddEdges) (schedule : List Nat) :
    (node.uncached extra).addEdgesChained req schedule =
      ((node.addEdgesChained req schedule).1.uncached extra,
        (node.addEdgesChained req schedule).2) := by
  have hlayout : (node.uncached extra).layout req.space true = node.layout req.space true := rfl
  unfold addEdgesChained
  rw [hlayout]
  split
  · rw [reportParts_uncached]
  · next layout _ =>
    have hchains := ChainQueue.run_map (uncached extra) (fun node => node.chainWriter = .toSource)
      (writeBatch req.space layout.vidLen !layout.indexes.isEmpty)
      fun node chain hwriter => ⟨writeBatch_uncached extra req.space hwriter layout.vidLen _ chain,
        (writeBatch_spec req.space layout.vidLen _ hwriter chain).2.1.chainWriter.trans hwriter⟩
    have hsplit : req.split (node.uncached extra) layout = req.split node layout := rfl
    have hbound : (node.uncached extra).config.maxChainInflight = node.config.maxChainInflight := rfl
    simp only [writeChains, hsplit, hbound, hchains _ _ _ hwriter, reportParts_uncached]

end GraphStore
