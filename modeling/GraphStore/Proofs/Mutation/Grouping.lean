import GraphStore.Proofs.Key.IndexKeys
import GraphStore.Proofs.Mutation.Chains
import GraphStore.Proofs.Mutation.Prepared
import GraphStore.Proofs.Storage.Commute

/-!
# Edges grouped by destination

The chains of a partition write to the same place, but they do not get in each other's way. A row
key tells the destination of its edge, so the same row is never in two chains, and an index entry
that is in several of them is empty in all. The chains may therefore be put in any order, and put
what the edges put without being grouped.
-/

namespace GraphStore

/-- Edges that may be grouped by destination: a row key belongs to one destination, and no row has
the key of an index entry, which is empty. -/
structure ReadyEdge.Separate (ready : List ReadyEdge) : Prop where
  rows : ∀ edge ∈ ready, edge.row.1.head? = some Key.edgeKind
  entries : ∀ edge ∈ ready, ∀ entry ∈ edge.indexEntries,
    entry.1.head? = some Key.indexKind ∧ entry.2 = []
  targets : ∀ edge ∈ ready, ∀ other ∈ ready, edge.row.1 = other.row.1 → edge.target = other.target

namespace AddEdges

variable {req : AddEdges} {node : Node} {layout : SpaceLayout} {part : PartId}
  {edges : List NewEdge} {ready : List ReadyEdge} {chain other : ChainBatch}

/-- An edge made ready goes to the partition of its destination, has the key of an edge row, and its
index entries are empty. -/
theorem shape_of_readyEdge {edge : NewEdge} {made : ReadyEdge}
    (h : req.readyEdge node layout part edge = .ok made) :
    node.placement.locate req.space edge.key.dst = .ok made.target ∧
      Key.edge layout.vidLen part edge.key = .ok made.row.1 ∧
      ∀ entry ∈ made.indexEntries, entry.1.head? = some Key.indexKind ∧ entry.2 = [] := by
  obtain ⟨htarget, hentries⟩ := readyEdge_eq_ok.1 h
  obtain ⟨schema, raw, key, keys, -, -, hkey, hkeys, hbatch⟩ := entries_eq_ok.1 hentries
  obtain ⟨hrow, hindex⟩ := List.cons.inj hbatch
  rw [hrow, hindex]
  refine ⟨htarget, hkey, fun entry hentry => ?_⟩
  obtain ⟨indexKey, hmem, rfl⟩ := List.mem_map.1 hentry
  obtain ⟨index, -, hencoded⟩ := exists_of_forall₂_right (mapM_eq_ok.1 hkeys) hmem
  exact ⟨IndexLayout.head?_of_indexStem_prefix (IndexLayout.indexStem_prefix hencoded), rfl⟩

/-- Edges to canonical ids that are made ready may be grouped. -/
theorem separate_of_readyEdge (hdst : ∀ edge ∈ edges, Canonical edge.key.dst)
    (hready : List.Forall₂ (fun edge ready => req.readyEdge node layout part edge = .ok ready)
      edges ready) : ReadyEdge.Separate ready where
  rows made hmade := by
    obtain ⟨edge, -, hedge⟩ := exists_of_forall₂_right hready hmade
    exact Key.head?_of_edge (shape_of_readyEdge hedge).2.1
  entries made hmade := by
    obtain ⟨edge, -, hedge⟩ := exists_of_forall₂_right hready hmade
    exact (shape_of_readyEdge hedge).2.2
  targets made hmade other hother hrow := by
    obtain ⟨edge, hmem, hedge⟩ := exists_of_forall₂_right hready hmade
    obtain ⟨edge', hmem', hedge'⟩ := exists_of_forall₂_right hready hother
    obtain ⟨htarget, hkey, -⟩ := shape_of_readyEdge hedge
    obtain ⟨htarget', hkey', -⟩ := shape_of_readyEdge hedge'
    rw [← hrow] at hkey'
    obtain ⟨-, hpadded, -, -⟩ := Key.edge_inj hkey hkey'
    obtain ⟨-, padded, -, hpad, -⟩ := Key.edge_eq_ok.1 hkey
    have hsame := Key.padVid_inj (hdst edge hmem) (hdst edge' hmem') hpad (hpadded ▸ hpad)
    rw [hsame] at htarget
    exact Except.ok.inj (htarget.symm.trans htarget')

/-- A partition has one chain to each destination. -/
theorem eq_of_target_eq (hchain : chain ∈ chainsOf part (Staged.ofEdges ready))
    (hother : other ∈ chainsOf part (Staged.ofEdges ready))
    (htarget : chain.chain.target = other.chain.target) : chain = other := by
  obtain ⟨hsource, -, hbatch⟩ := mem_chainsOf.1 hchain
  obtain ⟨hsource', -, hbatch'⟩ := mem_chainsOf.1 hother
  obtain ⟨⟨source, target⟩, batch⟩ := chain
  obtain ⟨⟨source', target'⟩, batch'⟩ := other
  dsimp only at hsource hsource' htarget hbatch hbatch'
  rw [hsource, hsource', hbatch, hbatch', htarget]

/-- What is in a chain is the row or an index entry of an edge to its destination. -/
theorem exists_of_mem_batch (hchain : chain ∈ chainsOf part (Staged.ofEdges ready)) {entry : Entry}
    (hentry : entry ∈ chain.batch) :
    ∃ edge ∈ ready, edge.target = chain.chain.target ∧ entry ∈ edge.row :: edge.indexEntries := by
  obtain ⟨-, -, hbatch⟩ := mem_chainsOf.1 hchain
  obtain ⟨edge, hedge, hmem⟩ := mem_batch_ofGroup.1 (hbatch ▸ hentry)
  obtain ⟨hready, htarget⟩ := List.mem_filter.1 hedge
  exact ⟨edge, hready, of_decide_eq_true htarget, hmem⟩

/-- Different chains of a partition agree on the keys that they share. -/
theorem agree_of_mem_chainsOf (h : ReadyEdge.Separate ready)
    (hchain : chain ∈ chainsOf part (Staged.ofEdges ready))
    (hother : other ∈ chainsOf part (Staged.ofEdges ready)) (hne : chain ≠ other) :
    Partition.Agree chain.batch other.batch := by
  intro entry hentry entry' hentry' hkey
  obtain ⟨edge, hedge, htarget, hmem⟩ := exists_of_mem_batch hchain hentry
  obtain ⟨edge', hedge', htarget', hmem'⟩ := exists_of_mem_batch hother hentry'
  have hkinds : (some Key.edgeKind : Option UInt8) ≠ some Key.indexKind := by decide
  rcases List.mem_cons.1 hmem with rfl | hmem
  · rcases List.mem_cons.1 hmem' with rfl | hmem'
    · have hsame := h.targets edge hedge edge' hedge' hkey
      exact absurd (eq_of_target_eq hchain hother (by rw [← htarget, ← htarget', hsame])) hne
    · have hrow := h.rows edge hedge
      rw [hkey, (h.entries edge' hedge' entry' hmem').1] at hrow
      exact absurd hrow.symm hkinds
  · obtain ⟨hhead, hvalue⟩ := h.entries edge hedge entry hmem
    rcases List.mem_cons.1 hmem' with rfl | hmem'
    · rw [hkey, h.rows edge' hedge'] at hhead
      exact absurd hhead hkinds
    · rw [hvalue, (h.entries edge' hedge' entry' hmem').2]

/-- The puts of the chains of a partition may change places. -/
theorem commute_of_mem_chainsOf (h : ReadyEdge.Separate ready)
    (hchain : chain ∈ chainsOf part (Staged.ofEdges ready))
    (hother : other ∈ chainsOf part (Staged.ofEdges ready)) :
    (Write.put chain.batch).Commute (.put other.batch) := by
  by_cases heq : chain = other
  · rw [heq]
    exact .refl _
  · exact .put (agree_of_mem_chainsOf h hchain hother heq)

/-- The rows and the index entries of edges, one edge after another. -/
def entriesOf (ready : List ReadyEdge) : List Entry :=
  ready.flatMap fun edge => edge.row :: edge.indexEntries

/-- No index entry has the key of an edge row. -/
theorem filter_indexEntries (h : ReadyEdge.Separate ready) {group : List ReadyEdge}
    (hgroup : ∀ edge ∈ group, edge ∈ ready) {key : Bytes} (hkey : key.head? = some Key.edgeKind) :
    (group.flatMap (·.indexEntries)).filter (·.1 = key) = [] := by
  refine List.filter_eq_nil_iff.2 fun entry hentry heq => ?_
  obtain ⟨edge, hedge, hmem⟩ := List.mem_flatMap.1 hentry
  have hhead := (h.entries edge (hgroup edge hedge) entry hmem).1
  rw [of_decide_eq_true heq, hkey] at hhead
  cases hhead

/-- Under the key of an edge row a group has the rows with this key. -/
theorem filter_batch_ofGroup (h : ReadyEdge.Separate ready) {group : List ReadyEdge}
    (hgroup : ∀ edge ∈ group, edge ∈ ready) {key : Bytes} (hkey : key.head? = some Key.edgeKind) :
    (Staged.ofGroup group).batch.filter (·.1 = key) =
      (group.filter (·.row.1 = key)).map (·.row) := by
  rw [Staged.batch, Staged.ofGroup, List.filter_append, filter_indexEntries h hgroup hkey,
    List.append_nil, List.filter_map]
  rfl

/-- Under the key of an edge row edges have the rows with this key. -/
theorem filter_entriesOf (h : ReadyEdge.Separate ready) {group : List ReadyEdge}
    (hgroup : ∀ edge ∈ group, edge ∈ ready) {key : Bytes} (hkey : key.head? = some Key.edgeKind) :
    (entriesOf group).filter (·.1 = key) = (group.filter (·.row.1 = key)).map (·.row) := by
  induction group with
  | nil => rfl
  | cons edge group ih =>
    obtain ⟨hedge, hrest⟩ := List.forall_mem_cons.1 hgroup
    have hindex : ([edge].flatMap (·.indexEntries)).filter (·.1 = key) = [] :=
      filter_indexEntries h (fun _ hmem => List.mem_singleton.1 hmem ▸ hedge) hkey
    have hstep : entriesOf (edge :: group) =
        edge.row :: ([edge].flatMap (·.indexEntries) ++ entriesOf group) := by
      rw [entriesOf, List.flatMap_cons, List.flatMap_singleton]
      rfl
    rw [hstep, List.filter_cons, List.filter_append, hindex, List.nil_append, ih hrest,
      List.filter_cons]
    split <;> rfl

/-- On a key that a chain has, it has the last word of all edges. -/
theorem lastValue?_of_mem_chainsOf (h : ReadyEdge.Separate ready)
    (hchain : chain ∈ chainsOf part (Staged.ofEdges ready)) {key : Bytes}
    (hkey : key ∈ Partition.keysOf chain.batch) :
    Partition.lastValue? chain.batch key = Partition.lastValue? (entriesOf ready) key := by
  obtain ⟨entry, hentry, rfl⟩ := List.mem_map.1 hkey
  obtain ⟨edge, hedge, htarget, hmem⟩ := exists_of_mem_batch hchain hentry
  have hall : entry ∈ entriesOf ready := List.mem_flatMap.2 ⟨edge, hedge, hmem⟩
  rcases List.mem_cons.1 hmem with rfl | hmem
  · -- All rows with this key are in this chain, in the same order.
    have hrow := h.rows edge hedge
    obtain ⟨-, -, hbatch⟩ := mem_chainsOf.1 hchain
    have hgroup : (ready.filter (·.target = chain.chain.target)).filter (·.row.1 = edge.row.1) =
        ready.filter (·.row.1 = edge.row.1) := by
      rw [List.filter_filter]
      refine List.filter_congr fun other hother => ?_
      by_cases heq : other.row.1 = edge.row.1
      · have hsame := h.targets other hother edge hedge heq
        simp [heq, hsame, htarget]
      · simp [heq]
    rw [hbatch, Partition.lastValue?, Partition.lastValue?, filter_batch_ofGroup h
      (fun _ hmem => (List.mem_filter.1 hmem).1) hrow, filter_entriesOf h (fun _ => id) hrow, hgroup]
  · -- The key is that of index entries, which are all empty.
    obtain ⟨hhead, -⟩ := h.entries edge hedge entry hmem
    have hempty (edge' : ReadyEdge) (hedge' : edge' ∈ ready) (entry' : Entry)
        (hmem' : entry' ∈ edge'.row :: edge'.indexEntries) (heq : entry'.1 = entry.1) :
        entry'.2 = [] := by
      rcases List.mem_cons.1 hmem' with rfl | hmem'
      · rw [← heq, h.rows edge' hedge'] at hhead
        cases hhead
      · exact (h.entries edge' hedge' entry' hmem').2
    have hpart : Partition.lastValue? chain.batch entry.1 = some [] := by
      refine Partition.lastValue?_of_forall hkey fun entry' hentry' heq => ?_
      obtain ⟨edge', hedge', -, hmem'⟩ := exists_of_mem_batch hchain hentry'
      exact hempty edge' hedge' entry' hmem' heq
    have hwhole : Partition.lastValue? (entriesOf ready) entry.1 = some [] := by
      refine Partition.lastValue?_of_forall (List.mem_map_of_mem hall) fun entry' hentry' heq => ?_
      obtain ⟨edge', hedge', hmem'⟩ := List.mem_flatMap.1 hentry'
      exact hempty edge' hedge' entry' hmem' heq
    exact hpart.trans hwhole.symm

/-- The chains of a partition, in any order, put what its edges put one after another. -/
theorem put_chainsOf (h : ReadyEdge.Separate ready) {order : List ChainBatch}
    (horder : order.Perm (chainsOf part (Staged.ofEdges ready))) (p : Partition) :
    p.put (order.flatMap (·.batch)) = p.put (entriesOf ready) := by
  apply Std.ExtTreeMap.ext_getElem?
  intro key
  have hkeys : key ∈ Partition.keysOf (order.flatMap (·.batch)) ↔
      key ∈ Partition.keysOf (entriesOf ready) := by
    simp only [Partition.keysOf, List.mem_map, entriesOf, List.mem_flatMap, horder.mem_iff,
      mem_batch_chainsOf]
  rw [Partition.getElem?_put, Partition.getElem?_put]
  by_cases hkey : key ∈ Partition.keysOf (entriesOf ready)
  · cases hlast : Partition.lastValue? (entriesOf ready) key with
    | none => exact absurd hkey (Partition.lastValue?_eq_none.1 hlast)
    | some value =>
      have hvalue : Partition.lastValue? (order.flatMap (·.batch)) key = some value := by
        refine Partition.lastValue?_flatMap (fun chain hchain hmem => ?_) (hkeys.2 hkey)
        rw [lastValue?_of_mem_chainsOf h (horder.mem_iff.1 hchain) hmem, hlast]
      rw [hvalue]
  · rw [Partition.lastValue?_eq_none.2 hkey, Partition.lastValue?_eq_none.2 (mt hkeys.1 hkey)]

/-- Whether all edges of a request go to canonical ids. -/
def ToCanonical (req : AddEdges) : Prop :=
  ∀ (part : PartId) (edges : List NewEdge), req.parts[part]? = some edges →
    ∀ edge ∈ edges, Canonical edge.key.dst

/-- The puts of the chains of a request may change places when its edges go to canonical ids. -/
theorem commute_chainWrites_split (hdst : req.ToCanonical) :
    ∀ x ∈ Node.chainWrites (req.split node layout).chains,
      ∀ y ∈ Node.chainWrites (req.split node layout).chains, x.1 = y.1 → x.2.Commute y.2 := by
  intro x hx y hy hpart
  obtain ⟨chain, hchain, rfl⟩ := List.mem_map.1 hx
  obtain ⟨other, hother, rfl⟩ := List.mem_map.1 hy
  have hsource : chain.chain.source = other.chain.source := hpart
  obtain ⟨edges, staged, hedges, hstage, hmem⟩ := exists_of_mem_split_chains hchain
  obtain ⟨edges', staged', hedges', hstage', hmem'⟩ := exists_of_mem_split_chains hother
  rw [← hsource] at hedges' hstage' hmem'
  obtain rfl := Option.some.inj (hedges.symm.trans hedges')
  obtain rfl := Except.ok.inj (hstage.symm.trans hstage')
  obtain ⟨ready, hready, rfl⟩ := stage_eq_ok.1 hstage
  exact commute_of_mem_chainsOf (separate_of_readyEdge (hdst _ _ hedges) hready) hmem hmem'

end AddEdges

end GraphStore
