import GraphStore.Proofs.Index.GivenRows
import GraphStore.Proofs.Index.Mutations

/-!
# The whole of a batch

What a batch mutation does to a partition that it does not list is told by the request, the catalog
and the content alone. An insert has stored every row that it gives, with an entry in each index; a
deletion has removed what is stored for all that it names, with the index entries of the rows found
there. Every other partition of the request is as it was.
-/

namespace GraphStore

/-- Items in groups by key, one group after another, are the items in another order. -/
theorem perm_flatMap_filter {α κ : Type} [DecidableEq κ] (key? : α → Option κ) {keys : List κ}
    (hnodup : keys.Nodup) (items : List α) (hkeys : ∀ a ∈ items, ∃ key ∈ keys, key? a = some key) :
    (keys.flatMap fun key => items.filter (key? · = some key)).Perm items := by
  induction keys generalizing items with
  | nil =>
    cases items with
    | nil => exact .nil
    | cons a items => simpa using hkeys a List.mem_cons_self
  | cons first keys ih =>
    obtain ⟨hfirst, hnodup⟩ := List.nodup_cons.1 hnodup
    -- The later groups are groups of the items outside the first one.
    have hlater (key : κ) (hkey : key ∈ keys) : items.filter (key? · = some key) =
        (items.filter fun a => !decide (key? a = some first)).filter (key? · = some key) := by
      rw [List.filter_filter]
      refine List.filter_congr fun a _ => ?_
      by_cases ha : key? a = some key
      · have hne : key ≠ first := fun heq => hfirst (heq ▸ hkey)
        simp [ha, hne]
      · simp [ha]
    have hrest : ∀ a ∈ items.filter fun a => !decide (key? a = some first),
        ∃ key ∈ keys, key? a = some key := by
      intro a ha
      obtain ⟨hmem, hother⟩ := List.mem_filter.1 ha
      obtain ⟨key, hkey, heq⟩ := hkeys a hmem
      rcases List.mem_cons.1 hkey with rfl | hkey
      · simp [heq] at hother
      · exact ⟨key, hkey, heq⟩
    rw [List.flatMap_cons, List.flatMap_congr hlater]
    exact ((ih hnodup _ hrest).append_left _).trans (List.filter_append_perm _ items)

/-- The row that a request gives for an edge. -/
def AddEdges.givenRow (req : AddEdges) (edge : NewEdge) : GivenRow where
  row := .edge edge.key
  names := req.propNames
  values := edge.props

/-- The rows that a request gives for a vertex, one for each of its tags. -/
def AddVertices.givenRows (req : AddVertices) (vertex : NewVertex) : List GivenRow :=
  vertex.tags.map fun tag => {
    row := .tag vertex.id tag.tag
    names := (req.propNames[tag.tag]?).getD []
    values := tag.props }

/-- Whether rows are what is stored for given ones, each for each. -/
def Site.MakesAll (site : Site) (given : List GivenRow) (rows : List FullRow) : Prop :=
  List.Forall₂ (fun given r => ∃ schema, site.Makes given schema r) given rows

namespace BatchMutation

/-- The rows that an insert gives for a partition. -/
def given : BatchMutation → PartId → List GivenRow
  | addVertices req, part => ((req.parts[part]?).getD []).flatMap req.givenRows
  | addEdges req, part => ((req.parts[part]?).getD []).map req.givenRow
  | addEdgesChained req _, part => ((req.parts[part]?).getD []).map req.givenRow
  | deleteVertices _, _ => []
  | deleteEdges _, _ => []

/-- The orders in which the given rows of a partition may be put: as they are given, or, through
chains, those of the edges into one partition after those of the edges into another. -/
inductive PutOrder (node : Node) : BatchMutation → PartId → List GivenRow → Prop where
  | addVertices (req : AddVertices) (part : PartId) :
      PutOrder node (.addVertices req) part ((addVertices req).given part)
  | addEdges (req : AddEdges) (part : PartId) :
      PutOrder node (.addEdges req) part ((addEdges req).given part)
  | addEdgesChained {req : AddEdges} {schedule : List Nat} {part : PartId} {targets : List PartId}
      (hnodup : targets.Nodup)
      (htargets : ∀ edge ∈ (req.parts[part]?).getD [], ∃ target ∈ targets,
        node.placement.locate req.space edge.key.dst = .ok target) :
      PutOrder node (.addEdgesChained req schedule) part (targets.flatMap fun target =>
        (((req.parts[part]?).getD []).filter fun edge =>
          node.placement.locate req.space edge.key.dst = .ok target).map req.givenRow)

/-- What a mutation has done to a requested partition that is not listed. The rows of an insert are
there with their entries, what a deletion names is gone with its entries, and everything else has
stayed; without anything to do the partition need not be there. -/
inductive Fulfils (node : Node) (m : BatchMutation) (part : PartId) :
    Option Partition → Option Partition → Prop where
  | inserted {vidLen : Nat} {order : List GivenRow} {rows : List FullRow} {p q : Partition}
      (hinsertion : m.isDeletion = false)
      (hvidLen : node.catalog.vidLen m.space = .ok vidLen)
      (hgiven : order.Perm (m.given part)) (horder : PutOrder node m part order)
      (hrows : Site.MakesAll ⟨node.catalog, m.space, vidLen, part⟩ order rows)
      (hgains : Gains rows p q) : Fulfils node m part (some p) (some q)
  | deleted {vidLen : Nat} {p q : Partition}
      (hdeletion : m.isDeletion = true)
      (hvidLen : node.catalog.vidLen m.space = .ok vidLen)
      (hfits : ∀ e, m.Deletes part e →
        ∃ key, Site.InRange ⟨node.catalog, m.space, vidLen, part⟩ e key)
      (hloses : Site.Loses ⟨node.catalog, m.space, vidLen, part⟩ (m.Deletes part) p q) :
      Fulfils node m part (some p) (some q)
  | idle (hidle : m.Idle part) : Fulfils node m part none none

end BatchMutation

namespace Site

variable {site : Site} {given : List GivenRow} {rows : List FullRow}

/-- What is stored for given rows has the keys of rows and of index entries. -/
theorem MakesAll.kinds (h : site.MakesAll given rows) : ∀ r ∈ rows, r.Kinds := by
  intro r hr
  obtain ⟨_, -, schema, hmade⟩ := exists_of_forall₂_right h hr
  exact hmade.kinds

/-- The entries of given rows, one row after another, are a batch of these. -/
theorem carries_flatten {batches : List (List Entry)}
    (h : List.Forall₂ (fun given batch => ∃ r, (∃ schema, site.Makes given schema r) ∧
      batch = r.entries) given batches) :
    ∃ rows, site.MakesAll given rows ∧ Carries batches.flatten rows := by
  obtain ⟨rows, hrows, hbatches⟩ := exists_forall₂_of_forall₂ h
  refine ⟨rows, hrows, ?_⟩
  have hentries : batches = rows.map FullRow.entries :=
    List.forall₂_eq_eq_eq ▸ List.forall₂_map_right_iff.2 hbatches
  rw [hentries, ← List.flatMap_def]
  exact .entries (MakesAll.kinds hrows)

/-- A group of edges made ready of given rows is a batch of these. -/
theorem carries_ofGroup {ready : List ReadyEdge}
    (h : List.Forall₂ (fun given (edge : ReadyEdge) => ∃ r, (∃ schema, site.Makes given schema r) ∧
      edge.row :: edge.indexEntries = r.entries) given ready) :
    ∃ rows, site.MakesAll given rows ∧ Carries (Staged.ofGroup ready).batch rows := by
  obtain ⟨rows, hrows, hready⟩ := exists_forall₂_of_forall₂ h
  refine ⟨rows, hrows, ?_⟩
  have hparts : ready.map (·.row) = (rows.map fun r => (r.key, r.raw)) ∧
      ready.flatMap (·.indexEntries) = rows.flatMap fun r => indexEntries r.keys := by
    clear hrows h
    induction hready with
    | nil => exact ⟨rfl, rfl⟩
    | cons hfirst _ ih =>
      obtain ⟨hrow, hindex⟩ := List.cons.inj hfirst
      obtain ⟨hmap, hflat⟩ := ih
      constructor
      · rw [List.map_cons, List.map_cons, hmap, hrow]
      · rw [List.flatMap_cons, List.flatMap_cons, hflat, hindex]
  rw [Staged.batch, Staged.ofGroup, hparts.1, hparts.2]
  exact .grouped (MakesAll.kinds hrows)

end Site

/-- The entries of a tag row are what is stored for it. -/
theorem AddVertices.makes_of_entries {req : AddVertices} {node : Node} {layout : SpaceLayout}
    {part : PartId} {item : TagItem} {batch : List Entry}
    (hlayout : node.layout req.space false = .ok layout)
    (h : req.entries node layout part item = .ok batch) :
    ∃ r, (∃ schema, Site.Makes ⟨node.catalog, req.space, layout.vidLen, part⟩
      ⟨.tag item.vid item.tag, req.namesOf item.tag, item.props⟩ schema r) ∧ batch = r.entries := by
  obtain ⟨schema, raw, key, keys, hschema, hraw, hkey, hkeys, rfl⟩ := entries_eq_ok.1 h
  exact ⟨_, ⟨schema, Site.makes_of_entryKeys hschema hraw hkey (Node.layout_eq_ok.1 hlayout).2
    hkeys⟩, rfl⟩

namespace AddEdges

variable {req : AddEdges} {node : Node} {layout : SpaceLayout} {part : PartId}
  {edges : List NewEdge} {ready : List ReadyEdge}

/-- The entries of an edge are what is stored for it. -/
theorem makes_of_entries {edge : NewEdge} {batch : List Entry}
    (hlayout : node.layout req.space true = .ok layout)
    (h : req.entries node layout part edge = .ok batch) :
    ∃ r, (∃ schema, Site.Makes ⟨node.catalog, req.space, layout.vidLen, part⟩ (req.givenRow edge)
      schema r) ∧ batch = r.entries := by
  obtain ⟨schema, raw, key, keys, hschema, hraw, hkey, hkeys, rfl⟩ := entries_eq_ok.1 h
  exact ⟨_, ⟨schema, Site.makes_of_entryKeys hschema hraw hkey (Node.layout_eq_ok.1 hlayout).2
    hkeys⟩, rfl⟩

/-- The edges to a partition are those made ready for it. -/
theorem readyEdge_filter
    (hready : List.Forall₂ (fun edge ready => req.readyEdge node layout part edge = .ok ready)
      edges ready) (target : PartId) :
    List.Forall₂ (fun edge ready => req.readyEdge node layout part edge = .ok ready)
      (edges.filter fun edge => node.placement.locate req.space edge.key.dst = .ok target)
      (ready.filter (·.target = target)) := by
  refine List.rel_filter (fun edge made hmade => ?_) hready
  simp only [decide_eq_true_iff, (readyEdge_eq_ok.1 hmade).1, Except.ok.injEq]

/-- Chains of the edges of a partition are a batch of the given rows, one target after another. -/
theorem carries_chains (hlayout : node.layout req.space true = .ok layout)
    (hready : List.Forall₂ (fun edge ready => req.readyEdge node layout part edge = .ok ready)
      edges ready) {order : List ChainBatch}
    (horder : ∀ chain ∈ order, chain ∈ chainsOf part (Staged.ofEdges ready)) :
    ∃ rows, Site.MakesAll ⟨node.catalog, req.space, layout.vidLen, part⟩
        ((order.map (·.chain.target)).flatMap fun target =>
          (edges.filter fun edge =>
            node.placement.locate req.space edge.key.dst = .ok target).map req.givenRow) rows ∧
      Carries (order.flatMap (·.batch)) rows := by
  induction order with
  | nil => exact ⟨[], .nil, .nil⟩
  | cons chain order ih =>
    obtain ⟨hchain, hrest⟩ := List.forall_mem_cons.1 horder
    obtain ⟨rows, hrows, hcarries⟩ := ih hrest
    obtain ⟨-, -, hbatch⟩ := mem_chainsOf.1 hchain
    have hgroup := (readyEdge_filter hready chain.chain.target).imp fun edge made hmade =>
      makes_of_entries hlayout (readyEdge_eq_ok.1 hmade).2
    obtain ⟨first, hfirst, hcarries'⟩ :=
      Site.carries_ofGroup (List.forall₂_map_left_iff.2 hgroup)
    refine ⟨first ++ rows, List.rel_append hfirst hrows, ?_⟩
    rw [List.flatMap_cons, hbatch]
    exact hcarries'.append hcarries

/-- A partition has one chain to a target. -/
theorem nodup_targets (staged : PartMap Staged) :
    ((chainsOf part staged).map (·.chain.target)).Nodup :=
  List.pairwise_map.2 (List.pairwise_map.2 (staged.distinct_toList.imp fun hne heq => hne heq))

/-- Every edge made ready has a chain to its target. -/
theorem exists_target
    (hready : List.Forall₂ (fun edge ready => req.readyEdge node layout part edge = .ok ready)
      edges ready) {edge : NewEdge} (hedge : edge ∈ edges) :
    ∃ target ∈ (chainsOf part (Staged.ofEdges ready)).map (·.chain.target),
      node.placement.locate req.space edge.key.dst = .ok target := by
  obtain ⟨made, hmem, hmade⟩ := exists_of_forall₂_left hready hedge
  have hgroup : made ∈ ready.filter (·.target = made.target) :=
    List.mem_filter.2 ⟨hmem, decide_eq_true rfl⟩
  let chain : ChainBatch := {
    chain := ⟨part, made.target⟩
    batch := (Staged.ofGroup (ready.filter (·.target = made.target))).batch }
  have hchain : chain ∈ chainsOf part (Staged.ofEdges ready) :=
    mem_chainsOf.2 ⟨rfl, List.ne_nil_of_mem hgroup, rfl⟩
  exact ⟨made.target, List.mem_map.2 ⟨chain, hchain, rfl⟩, (readyEdge_eq_ok.1 hmade).1⟩

end AddEdges

namespace BatchMutation

variable {node : Node} {m : BatchMutation} {part : PartId}

/-- In whichever order rows are put, all given ones are, each as often as it is given. -/
theorem PutOrder.perm {order : List GivenRow} (h : PutOrder node m part order) :
    order.Perm (m.given part) := by
  cases h with
  | addVertices req => exact .refl _
  | addEdges req => exact .refl _
  | @addEdgesChained req schedule _ targets hnodup htargets =>
    have hlocated (edge : NewEdge) (target : PartId) :
        (node.placement.locate req.space edge.key.dst).toOption = some target ↔
          node.placement.locate req.space edge.key.dst = .ok target := by
      cases node.placement.locate req.space edge.key.dst <;> simp [Except.toOption]
    have hperm := perm_flatMap_filter
      (fun edge : NewEdge => (node.placement.locate req.space edge.key.dst).toOption) hnodup
      ((req.parts[part]?).getD []) (by simpa only [hlocated] using htargets)
    simp only [hlocated] at hperm
    rw [given, ← List.map_flatMap]
    exact hperm.map req.givenRow

/-- What an insert puts is a batch of the rows that it gives. -/
theorem Puts.carries {batch : List Entry} (h : Puts node m part batch) {vidLen : Nat}
    (hvidLen : node.catalog.vidLen m.space = .ok vidLen) :
    ∃ order rows, PutOrder node m part order ∧
      Site.MakesAll ⟨node.catalog, m.space, vidLen, part⟩ order rows ∧ Carries batch rows := by
  cases h with
  | @addVertices req layout part vertices batches hlayout hitems hbatches =>
    obtain rfl := vidLen_of_layout hlayout hvidLen
    have hgiven : (BatchMutation.addVertices req).given part =
        (TagItem.ofVertices vertices).map fun item => ⟨.tag item.vid item.tag, req.namesOf item.tag, item.props⟩ := by
      rw [given, hitems, TagItem.ofVertices, List.map_flatMap]
      simp only [List.map_map]
      rfl
    obtain ⟨rows, hrows, hcarries⟩ := Site.carries_flatten (List.forall₂_map_left_iff.2
      (hbatches.imp fun item batch => AddVertices.makes_of_entries hlayout))
    exact ⟨_, rows, .addVertices req part, hgiven ▸ hrows, hcarries⟩
  | @addEdges req layout part edges batches hlayout hitems hbatches =>
    obtain rfl := vidLen_of_layout hlayout hvidLen
    have hgiven : (BatchMutation.addEdges req).given part = edges.map req.givenRow := by
      rw [given, hitems]
      rfl
    obtain ⟨rows, hrows, hcarries⟩ := Site.carries_flatten (List.forall₂_map_left_iff.2
      (hbatches.imp fun edge batch => AddEdges.makes_of_entries hlayout))
    exact ⟨_, rows, .addEdges req part, hgiven ▸ hrows, hcarries⟩
  | @addEdgesChained req schedule layout part edges ready order hlayout hitems hready horder =>
    obtain rfl := vidLen_of_layout hlayout hvidLen
    have htargets := horder.map (·.chain.target)
    obtain ⟨rows, hrows, hcarries⟩ := AddEdges.carries_chains hlayout hready fun chain hchain =>
      horder.mem_iff.1 hchain
    have hnodup : (order.map (·.chain.target)).Nodup :=
      htargets.nodup_iff.2 (AddEdges.nodup_targets _)
    refine ⟨_, rows, .addEdgesChained hnodup ?_, ?_, hcarries⟩
    · rw [hitems]
      intro edge hedge
      obtain ⟨target, htarget, hlocated⟩ := AddEdges.exists_target hready hedge
      exact ⟨target, htargets.mem_iff.2 htarget, hlocated⟩
    · rw [hitems]
      exact hrows

/-- All that a deletion names has keys. -/
theorem Whole.fits {change : Partition → Partition} (h : Whole node m part change) {vidLen : Nat}
    (hvidLen : node.catalog.vidLen m.space = .ok vidLen) {e : Entity} (he : m.Deletes part e) :
    ∃ key, Site.InRange ⟨node.catalog, m.space, vidLen, part⟩ e key := by
  cases he with
  | vertex hitems hvid =>
    cases h with
    | put hputs => cases hputs
    | deleteVertices hlayout hitems' hremovals =>
      obtain rfl := vidLen_of_layout hlayout hvidLen
      obtain rfl := Option.some.inj (hitems.symm.trans hitems')
      obtain ⟨removal, -, hremoval⟩ := exists_of_forall₂_left hremovals hvid
      obtain ⟨stem, hstem, -⟩ := bind_eq_ok.1 hremoval
      exact ⟨stem, stem, hstem, List.prefix_rfl⟩
  | edge hitems hedge =>
    cases h with
    | put hputs => cases hputs
    | deleteEdges hlayout hitems' hremovals =>
      obtain rfl := vidLen_of_layout hlayout hvidLen
      obtain rfl := Option.some.inj (hitems.symm.trans hitems')
      obtain ⟨keys, -, hremoval⟩ := exists_of_forall₂_left hremovals hedge
      obtain ⟨key, hkey, -⟩ := bind_eq_ok.1 hremoval
      exact ⟨key, hkey⟩

/-- The whole of a batch does what the request asks for. -/
theorem Whole.fulfils {change : Partition → Partition} (h : Whole node m part change)
    {p : Partition} (hp : node.store.parts[(⟨m.space, part⟩ : Address)]? = some p) :
    Fulfils node m part (some p) (some (change p)) := by
  obtain ⟨vidLen, hvidLen⟩ := h.vidLen
  cases hkind : m.isDeletion with
  | false =>
    obtain ⟨batch, hputs, rfl⟩ := h.puts hkind
    obtain ⟨order, rows, horder, hrows, hcarries⟩ := hputs.carries hvidLen
    exact .inserted hkind hvidLen horder.perm horder hrows (hcarries.gains p)
  | true => exact .deleted hkind hvidLen (fun e => h.fits hvidLen) (h.loses hkind hp hvidLen)

/-- A batch mutation is all or nothing for each partition, provided that no failure set for a
partition is called a success and chains go to their sources. The partitions listed are requested
ones, each once; they and all that are not requested keep their content, and every other has all
that the request asks for done to it. -/
theorem run_allOrNothing (m : BatchMutation) (node : Node) (hhonest : node.store.HonestFailures)
    (hwriter : ∀ req schedule, m = addEdgesChained req schedule → node.chainWriter = .toSource) :
    AllOrNothing node.store (m.run node).1.store m.space (m.listed node) m.Requests
      (Fulfils node m) := by
  refine (m.allOrNothing_whole hhonest hwriter).imp ?_
  rintro part ⟨change, hwhole, hafter, hthere⟩
  rw [hafter]
  cases hp : node.store.parts[(⟨m.space, part⟩ : Address)]? with
  | none =>
    rw [hp] at hthere
    exact .idle (hthere.resolve_left nofun)
  | some p => exact hwhole.fulfils hp

/-- Edges given to two partitions, of which the second refuses every write. The first has taken all
of its own, through two chains: the last row of the edge that is given twice, and every index
entry. -/
theorem run_allOrNothing_of_one_blocked :
    let follows := [{ name := "since", ty := .int16 }]
    let node : Node := {
      store := (((({} : Store).addPart ⟨1, 1⟩ default).addPart ⟨1, 2⟩ default).multiPut ⟨1, 2⟩
        [([9], [])]).1.failPart ⟨1, 2⟩ .writeBlocked
      catalog := ((Catalog.addSpace {} 1 1).addEdge 1 7 "follows" { columns := follows }).addIndex 1
        { id := 5, name := "by_since", owner := .edge 7, columns := follows }
      placement := .table [("b", 2), ("a", 1)] }
    let m := addEdgesChained {
      space := 1
      propNames := ["since"]
      parts := .insert (.insert ∅ 1 [⟨⟨"a", 7, 0, "b"⟩, [.int 20]⟩, ⟨⟨"a", 7, 0, "a"⟩, [.int 21]⟩,
        ⟨⟨"a", 7, 0, "b"⟩, [.int 22]⟩]) 2 [⟨⟨"b", 7, 0, "a"⟩, [.int 20]⟩] } [1]
    let after := (m.run node).1.store
    node.store.HonestFailures ∧ node.chainWriter = .toSource ∧
      AllOrNothing node.store after m.space (m.listed node) m.Requests (Fulfils node m) ∧
      m.listed node = [2] ∧
      (after.parts[(⟨1, 1⟩ : Address)]?).map (·.toList) = some [
        ([2, 0, 0, 1, 97, 128, 0, 0, 7, 128, 0, 0, 0, 0, 0, 0, 0, 97], Row.toBytes [.int 21]),
        ([2, 0, 0, 1, 97, 128, 0, 0, 7, 128, 0, 0, 0, 0, 0, 0, 0, 98], Row.toBytes [.int 22]),
        ([3, 0, 0, 1, 128, 0, 0, 5, 128, 0, 0, 0, 0, 0, 0, 20, 97, 128, 0, 0, 0, 0, 0, 0, 0, 98], []),
        ([3, 0, 0, 1, 128, 0, 0, 5, 128, 0, 0, 0, 0, 0, 0, 21, 97, 128, 0, 0, 0, 0, 0, 0, 0, 97], []),
        ([3, 0, 0, 1, 128, 0, 0, 5, 128, 0, 0, 0, 0, 0, 0, 22, 97, 128, 0, 0, 0, 0, 0, 0, 0, 98], [])] ∧
      (after.parts[(⟨1, 2⟩ : Address)]?).map (·.toList) = some [([9], [])] := by
  intro follows node m after
  have hhonest : node.store.HonestFailures := by
    intro addr
    have hfailures : node.store.failures = (∅ : Std.ExtTreeMap Address EngineCode).insert ⟨1, 2⟩
        .writeBlocked := congrArg (·.insert ⟨1, 2⟩ .writeBlocked) (Store.frame_write ..).2
    rw [hfailures, Std.ExtTreeMap.getElem?_insert]
    split <;> simp
  exact ⟨hhonest, rfl, run_allOrNothing m node hhonest fun _ _ _ => rfl, by decide +kernel,
    by decide +kernel, by decide +kernel⟩

end BatchMutation

end GraphStore
