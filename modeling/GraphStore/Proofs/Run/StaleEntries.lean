import GraphStore.Proofs.Run.MissingEntries

/-!
# When index entries go stale

Deletions and updates retire the index entries of the rows they remove or replace. Inserts do not look
at what they overwrite, neither in the partition nor earlier in their own batch, so an index key of
the row that is lost stays behind unless the row that is put has it too. No other step leaves a stale
entry.

Whether an entry is stale is told from the row as it reads back. Finite doubles are assumed to read
back as they were written, which holds of a reader of numbers that goes to the nearest double.
-/

namespace GraphStore

/-- Whether an insert drops an index key: it takes effect in a partition, and of the rows that stand
under one key, before it or within its batch, one has an index key that the last one does not have. -/
def BatchMutation.Drops (m : BatchMutation) (node : Node) : Prop :=
  ∃ part p batch vidLen, node.catalog.vidLen m.space = .ok vidLen ∧
    node.store.parts[(⟨m.space, part⟩ : Address)]? = some p ∧ BatchMutation.Puts node m part batch ∧
    (m.run node).1.store.parts[(⟨m.space, part⟩ : Address)]? = some (p.put batch) ∧
    ¬ Site.KeepsEntries ⟨node.catalog, m.space, vidLen, part⟩ p batch

/-- Whether a step is an insert that drops an index key. -/
def Event.Drops (node : Node) : Event → Prop
  | batch m => m.Drops node
  | _ => False

namespace Node

variable {catalog : Catalog} {node : Node}

/-- Whether every index key that a node stores is a key of a row stored in the same partition. -/
def StaleFree (catalog : Catalog) (node : Node) : Prop :=
  ∀ (addr : Address) (p : Partition) (vidLen : Nat), node.store.parts[addr]? = some p →
    catalog.vidLen addr.space = .ok vidLen →
      Site.StaleFree ⟨catalog, addr.space, vidLen, addr.part⟩ p

/-- Nothing is stale where nothing is. -/
theorem staleFree_empty (site : Site) : site.StaleFree ∅ := by
  intro entry hentry
  simp at hentry

/-- A batch mutation leaves no stale entry exactly when it drops no index key. -/
theorem staleFree_run_iff (hindexed : node.Indexed catalog) (hsound : catalog.Sound)
    (hfresh : node.StaleFree catalog) {m : BatchMutation} (hfinite : m.Finite) :
    (m.run node).1.StaleFree catalog ↔ ¬ m.Drops node := by
  obtain ⟨hsteady, hintact⟩ := hindexed
  obtain rfl := hsteady.catalog_eq
  constructor
  · rintro hstale ⟨part, p, batch, vidLen, hvidLen, hp, hputs, hafter, hnot⟩
    obtain ⟨rows, hrows, -⟩ := hputs.madeOf hsound hfinite hvidLen
    have hcomplete := (hintact _ p hp).complete vidLen hvidLen
    exact hnot ((Site.staleFree_put_iff hsound.registered hcomplete (hfresh _ p vidLen hp hvidLen)
      hrows).1 (hstale _ _ vidLen hafter hvidLen))
  · intro hnot addr after vidLen hafter hvidLen
    rcases m.run_change hsteady.chainWriter_eq addr with
      hsame | ⟨hspace, change, hwhole, hcontent⟩
    · exact hfresh addr after vidLen (hsame.symm.trans hafter) hvidLen
    · obtain ⟨space, part⟩ := addr
      obtain rfl : space = m.space := hspace
      obtain ⟨p, hp, rfl⟩ := Option.map_eq_some_iff.1 (hcontent.symm.trans hafter)
      have hold := hfresh _ p vidLen hp hvidLen
      cases hwhole with
      | @put _ _ batch hputs =>
        obtain ⟨rows, hrows, -⟩ := hputs.madeOf hsound hfinite hvidLen
        have hcomplete := (hintact _ p hp).complete vidLen hvidLen
        refine (Site.staleFree_put_iff hsound.registered hcomplete hold hrows).2 ?_
        by_contra hdrops
        exact hnot ⟨part, p, batch, vidLen, hvidLen, hp, hputs, hafter, hdrops⟩
      | deleteVertices hlayout hitems hremovals =>
        have hwhole := BatchMutation.Whole.deleteVertices hlayout hitems hremovals
        exact hold.shrinks ((hwhole.loses rfl hp hvidLen).shrinks hsound.registered)
      | deleteEdges hlayout hitems hremovals =>
        have hwhole := BatchMutation.Whole.deleteEdges hlayout hitems hremovals
        exact hold.shrinks ((hwhole.loses rfl hp hvidLen).shrinks hsound.registered)

/-- A step that is no batch mutation leaves no stale entry. -/
theorem StaleFree.step_of_not_batch (hsteady : node.Steady catalog) (hfresh : node.StaleFree catalog)
    {event : Event} (hother : ∀ m, event ≠ .batch m) : (event.run node).1.StaleFree catalog := by
  intro addr after vidLen hafter hvidLen
  obtain rfl := hsteady.catalog_eq
  rcases event.effect hsteady.chainWriter_eq hafter with ⟨-, rfl⟩ | ⟨p, hp, heffect⟩
  · exact staleFree_empty _
  · have hold := hfresh addr p vidLen hp hvidLen
    cases heffect with
    | same => exact hold
    | whole => exact absurd rfl (hother _)
    | replaced hwidth _ _ hreplaces =>
      obtain rfl := Except.ok.inj (hwidth.symm.trans hvidLen)
      exact hold.replace hreplaces

/-- A step leaves no stale entry exactly when it is no insert that drops an index key. -/
theorem staleFree_step_iff (hindexed : node.Indexed catalog) (hsound : catalog.Sound)
    (hfresh : node.StaleFree catalog) {event : Event} (hfinite : event.Finite) :
    (event.run node).1.StaleFree catalog ↔ ¬ event.Drops node := by
  cases event with
  | batch m => exact staleFree_run_iff hindexed hsound hfresh hfinite
  | _ => exact iff_of_true (hfresh.step_of_not_batch hindexed.1 nofun) id

/-- Along a run from a node that holds nothing, no index entry is stale at any time exactly when no
step is an insert that drops an index key. The values written are finite, and finite doubles are
assumed to read back as written: an index key is made of the value given, and compared with the one
that is read. -/
theorem never_stale_iff (hsound : catalog.Sound) (placement : Placement) (config : Config)
    {events : List Event} (hfinite : ∀ event ∈ events, event.Finite) :
    (∀ done, done <+: events → ((fresh catalog placement config).after done).StaleFree catalog) ↔
      ∀ done event, done ++ [event] <+: events →
        ¬ event.Drops ((fresh catalog placement config).after done) := by
  have hindexed (done : List Event) (hdone : done <+: events) :
      ((fresh catalog placement config).after done).Indexed catalog :=
    indexed_after hsound placement config fun event hevent => hfinite event (hdone.subset hevent)
  have hstep (done : List Event) (event : Event) (hdone : done ++ [event] <+: events)
      (hfresh : ((fresh catalog placement config).after done).StaleFree catalog) :
      ((fresh catalog placement config).after (done ++ [event])).StaleFree catalog ↔
        ¬ event.Drops ((fresh catalog placement config).after done) := by
    rw [after_concat]
    have hmem : event ∈ events := hdone.subset (List.mem_append_right _ (List.mem_singleton_self _))
    exact staleFree_step_iff (hindexed done ((List.prefix_append ..).trans hdone)) hsound hfresh
      (hfinite event hmem)
  constructor
  · intro hnever done event hdone
    exact (hstep done event hdone (hnever done ((List.prefix_append ..).trans hdone))).1
      (hnever _ hdone)
  · intro hnone done
    -- Induction from the back: a run is stale-free up to its last step, which drops nothing.
    induction done using List.reverseRecOn with
    | nil =>
      intro _ addr p vidLen hp
      simp [after, fresh] at hp
    | append_singleton done event ih =>
      intro hdone
      exact (hstep done event hdone (ih ((List.prefix_append ..).trans hdone))).2
        (hnone done event hdone)

/-- The exact condition speaks of a run in which a person is put again with another age. -/
theorem never_stale_iff_of_person_put_again :
    let start := fresh .people (.table []) {}
    let events := [.addPart ⟨1, 1⟩ default, .addPerson "a" 7, .addPerson "a" 8]
    Catalog.people.Sound ∧ (∀ event ∈ events, event.Finite) ∧
      ((∀ done, done <+: events → (start.after done).StaleFree .people) ↔
        ∀ done event, done ++ [event] <+: events → ¬ event.Drops (start.after done)) := by
  intro start events
  have hfinite : ∀ event ∈ events, event.Finite := by
    simp only [events, List.forall_mem_cons]
    exact ⟨trivial, Event.addPerson_finite "a" 7, Event.addPerson_finite "a" 8, nofun⟩
  exact ⟨Catalog.people_sound, hfinite, never_stale_iff Catalog.people_sound (.table []) {} hfinite⟩

/-- A person that was put twice with different ages leaves the entry of the first one behind, even
when its deletion succeeds. -/
theorem stale_entry_of_deleted_person :
    let before := [.addPart ⟨1, 1⟩ default, .addPerson "a" 7, .addPerson "a" 8]
    let delete : Event := .batch (.deleteVertices { space := 1, parts := .insert ∅ 1 ["a"] })
    let node := (fresh .people (.table []) {}).after before
    (∃ response, (delete.run node).2 = .changed response ∧ response.failed = []) ∧
      ¬ (delete.run node).1.StaleFree .people := by
  intro before delete node
  let entry : Bytes := [3, 0, 0, 1, 128, 0, 0, 5, 128, 0, 0, 0, 0, 0, 0, 7, 97, 0, 0, 0]
  have hkeys : ((delete.run node).1.store.parts[(⟨1, 1⟩ : Address)]?).map (·.keys) = some [entry] := by
    decide +kernel
  obtain ⟨p, hp, hentries⟩ := Option.map_eq_some_iff.1 hkeys
  refine ⟨⟨_, rfl, by decide +kernel⟩, fun hfresh => ?_⟩
  have hmem : entry ∈ p := Std.ExtTreeMap.mem_keys.1 (hentries ▸ List.mem_singleton_self _)
  have hwidth : Catalog.people.vidLen 1 = .ok 4 := by
    rw [Catalog.vidLen, Catalog.entry_people]
    rfl
  -- The row that the entry would belong to has a key of another kind than all that is left.
  obtain ⟨row, key, raw, hkey, hraw, -⟩ := hfresh _ p 4 hp hwidth entry hmem rfl
  have hleft : key ∈ p.keys := Std.ExtTreeMap.mem_keys.2 (Partition.mem_iff_getElem?.2 ⟨raw, hraw⟩)
  rw [hentries, List.mem_singleton] at hleft
  exact Site.head?_of_rowKey hkey (hleft ▸ rfl)

end Node

end GraphStore
