import GraphStore.Proofs.Cache.Deletions
import GraphStore.Proofs.Cache.Lookups

/-!
# Runs with and without a cache

When each vertex is always addressed at home, a run with a cache stores what the run without one stores
and gives the same replies, and all rows in the cache are the ones stored. The one difference is made
by deletions that miss a partition: such a deletion may list the partition under another code, and
removals that change nothing are not counted.
-/

namespace GraphStore

variable {catalog : Catalog} {homes : Homes}

namespace Event

/-- Whether a step is a deletion that misses a partition. -/
def Misses (node : Node) : Event → Prop
  | batch (.deleteVertices req) => ∃ part vidLen vids, req.Misses node part vidLen vids
  | _ => False

/-- The insertion of a person addresses it in the first partition. -/
theorem addPerson_atHome {vid : VertexId} (hvid : Canonical vid) (age : Int64) :
    (addPerson vid age).AtHome fun _ _ => 1 := by
  intro part vertices hvertices v hv
  rw [Std.ExtTreeMap.getElem?_insert] at hvertices
  split at hvertices
  · next heq =>
    cases hvertices
    rw [List.mem_singleton.1 hv]
    exact ⟨hvid, Std.LawfulEqCmp.eq_of_compare heq⟩
  · simp at hvertices

end Event

namespace Node

/-- Whether a node is one of a run with a cache: its catalog and setting are those of the run, its
partitions hold their own vertices, and its cache is coherent. -/
structure Tracked (catalog : Catalog) (homes : Homes) (node : Node) : Prop where
  steady : node.Steady catalog
  housed : node.Housed homes
  coherent : node.Coherent homes

variable {node : Node} {event : Event}

/-- A node that holds nothing is tracked. -/
theorem tracked_fresh (catalog : Catalog) (homes : Homes) (placement : Placement) (config : Config) :
    (fresh catalog placement config).Tracked catalog homes := by
  refine ⟨⟨rfl, rfl, rfl⟩, fun addr p vidLen hp => ?_, fun rows key raw hrows hrow => ?_⟩
  · simp [fresh] at hp
  · have hempty : VertexCache.ofCapacity? config.vertexCacheCapacity = some rows := hrows
    unfold VertexCache.ofCapacity? at hempty
    split at hempty
    · cases hempty
    · cases hempty
      cases hrow

/-- A step at home keeps the node tracked. -/
theorem Tracked.step (hregistered : catalog.Registered) (h : node.Tracked catalog homes)
    (hhome : event.AtHome homes) : (event.run node).1.Tracked catalog homes := by
  refine ⟨h.steady.step event, h.housed.step h.steady hhome, ?_⟩
  by_cases hlookup : ∃ req order, event = .lookup req order
  · obtain ⟨req, order, rfl⟩ := hlookup
    exact (lookupInOrder_uncached 0 h.steady hregistered h.housed h.coherent req order).2
  · exact h.coherent.step h.steady hhome fun req order heq => hlookup ⟨req, order, heq⟩

/-- A step that misses no partition is the same without a cache. -/
theorem Tracked.run_uncached (extra : Nat) (hregistered : catalog.Registered)
    (h : node.Tracked catalog homes) (hmiss : ¬ event.Misses node) :
    event.run (node.uncached extra) = ((event.run node).1.uncached extra, (event.run node).2) := by
  have hwriter := h.steady.chainWriter_eq
  cases event with
  | batch m =>
    have hm : m.run (node.uncached extra) = ((m.run node).1.uncached extra, (m.run node).2) := by
      cases m with
      | addVertices req => exact addVertices_uncached extra node req
      | addEdges req => exact addEdges_uncached extra node req
      | addEdgesChained req schedule => exact addEdgesChained_uncached extra hwriter req schedule
      | deleteVertices req =>
        exact deleteVertices_uncached extra req h.steady.down_eq fun part vidLen vids hmisses =>
          hmiss ⟨part, vidLen, vids, hmisses⟩
      | deleteEdges req => exact deleteEdges_uncached extra node req
    rw [Event.run, hm]
    rfl
  | update req =>
    rw [Event.run, updateVertex_uncached]
    rfl
  | lookup req order =>
    rw [Event.run,
      (lookupInOrder_uncached extra h.steady hregistered h.housed h.coherent req order).1]
    rfl
  | addPart addr leader => rfl
  | failPart addr code => rfl
  | healPart addr => rfl
  | clearLeader addr => rfl

/-- A step leaves the same behind without a cache, but for removals that a deletion counts which
misses a partition. -/
theorem Tracked.run_uncached_fst (extra : Nat) (hregistered : catalog.Registered)
    (h : node.Tracked catalog homes) (event : Event) :
    ∃ more, (event.run (node.uncached extra)).1 = (event.run node).1.uncached (extra + more) ∧
      (¬ event.Misses node → more = 0) := by
  by_cases hmiss : event.Misses node
  · unfold Event.Misses at hmiss
    split at hmiss
    · next req =>
      obtain ⟨more, hmore⟩ := deleteVertices_uncached_fst extra req h.steady.down_eq
      exact ⟨more, hmore, fun hnone => absurd hmiss hnone⟩
    · exact hmiss.elim
  · refine ⟨0, ?_, fun _ => rfl⟩
    rw [h.run_uncached extra hregistered hmiss, Nat.add_zero]

/-- A run leaves the same behind without a cache, but for removals counted by deletions that miss a
partition. -/
theorem after_uncached (hregistered : catalog.Registered) (placement : Placement) (config : Config)
    {events : List Event} (hhome : ∀ event ∈ events, event.AtHome homes) :
    ((fresh catalog placement config).after events).Tracked catalog homes ∧
      ∃ extra, (fresh catalog placement { config with vertexCacheCapacity := 0 }).after events =
          ((fresh catalog placement config).after events).uncached extra ∧
        ((∀ done event, done ++ [event] <+: events →
          ¬ event.Misses ((fresh catalog placement config).after done)) → extra = 0) := by
  -- Induction from the back: both runs make their last step from nodes that differ in the cache.
  induction events using List.reverseRecOn with
  | nil => exact ⟨tracked_fresh catalog homes placement config, 0, rfl, fun _ => rfl⟩
  | append_singleton events event ih =>
    obtain ⟨htracked, extra, hplain, hzero⟩ :=
      ih fun event hevent => hhome event (List.mem_append_left _ hevent)
    obtain ⟨more, hmore, hnone⟩ := htracked.run_uncached_fst extra hregistered event
    rw [after_concat, after_concat, hplain, hmore]
    refine ⟨htracked.step hregistered
      (hhome event (List.mem_append_right _ (List.mem_singleton_self event))), _, rfl, fun hmisses => ?_⟩
    have hlast := hnone (hmisses events event (List.prefix_refl _))
    have hbefore := hzero fun done other hdone =>
      hmisses done other (hdone.trans (List.prefix_append ..))
    rw [hlast, hbefore]

/-- After a run at home all rows in the cache are the ones stored, and the run without a cache has left
the same behind, up to removals counted by deletions that miss a partition. Every next step has the
same reply with and without the cache unless it is such a deletion, and the replies to a deletion agree
on all partitions that are not missed. -/
theorem cache_transparent (hregistered : catalog.Registered) (placement : Placement)
    (config : Config) {events : List Event} (hhome : ∀ event ∈ events, event.AtHome homes) :
    let start := fresh catalog placement config
    let cached := start.after events
    let plain := (fresh catalog placement { config with vertexCacheCapacity := 0 }).after events
    cached.Coherent homes ∧
      (∃ extra, plain = cached.uncached extra ∧
        ((∀ done event, done ++ [event] <+: events → ¬ event.Misses (start.after done)) →
          extra = 0)) ∧
      (∀ event : Event, ¬ event.Misses cached → (event.run plain).2 = (event.run cached).2) ∧
      ∀ req : DeleteVertices,
        req.Agreement cached (cached.deleteVertices req).2 (plain.deleteVertices req).2 := by
  intro start cached plain
  obtain ⟨htracked, extra, hplain, hzero⟩ := after_uncached hregistered placement config hhome
  have hsame : plain = cached.uncached extra := hplain
  refine ⟨htracked.coherent, ⟨extra, hsame, hzero⟩, fun event hmiss => ?_, fun req => ?_⟩
  · rw [hsame, htracked.run_uncached extra hregistered hmiss]
  · rw [hsame]
    exact deleteVertices_agreement extra req htracked.steady.down_eq

/-- The cache is transparent in a run that caches the row of a person and then puts the person again. -/
theorem cache_transparent_of_person_put_again :
    let start := fresh .people (.table []) { vertexCacheCapacity := 1 }
    let others : Lookup := {
      space := 1
      parts := [1]
      indices := { queries := [{ index := 5 }], isEdge := false, schemaId := 3 }
      returnColumns := ["other"] }
    let events := [.addPart ⟨1, 1⟩ default, .addPerson "a" 7, .lookup others [1]]
    let cached := start.after events
    let plain := (fresh .people (.table []) { vertexCacheCapacity := 0 }).after events
    (cached.cache.any fun cache => (cache.row? ⟨1, "a", 3⟩).isSome) = true ∧
      cached.Coherent (fun _ _ => 1) ∧
      (Event.run plain (.addPerson "a" 8)).2 = (Event.run cached (.addPerson "a" 8)).2 := by
  intro start others events cached plain
  have hhome : ∀ event ∈ events, event.AtHome fun _ _ => 1 := by
    simp only [events, List.forall_mem_cons]
    exact ⟨trivial, Event.addPerson_atHome (by decide) 7, trivial, nofun⟩
  obtain ⟨hcoherent, -, hreply, -⟩ := cache_transparent Catalog.people_sound.registered (.table [])
    { vertexCacheCapacity := 1 } hhome
  exact ⟨by decide +kernel, hcoherent, hreply (.addPerson "a" 8) id⟩

/-- A deletion that names a short and a long id in a partition that is not there has another reply
with a cache than without. -/
theorem reply_ne_of_missed_partition :
    let catalog := Catalog.addSpace {} 1 4
    let delete : Event :=
      .batch (.deleteVertices { space := 1, parts := .insert ∅ 9 ["a", "toolong"] })
    catalog.Registered ∧ delete.AtHome (fun _ _ => 9) ∧
      (delete.run (fresh catalog (.table []) { vertexCacheCapacity := 4 })).2 ≠
        (delete.run (fresh catalog (.table []) { vertexCacheCapacity := 0 })).2 := by
  intro catalog delete
  refine ⟨.addSpace .empty 1 4, fun part vids hvids vid hvid => ?_, by decide +kernel⟩
  rw [Std.ExtTreeMap.getElem?_insert] at hvids
  split at hvids
  · next heq =>
    cases hvids
    refine ⟨?_, Std.LawfulEqCmp.eq_of_compare heq⟩
    rcases List.mem_pair.1 hvid with rfl | rfl <;> decide
  · simp at hvids

end Node

end GraphStore
