import GraphStore.Proofs.Key.IndexReadings
import GraphStore.Proofs.Query.Hits

/-!
# Scans as parts of the full scan

The scan of an index without hints finds a hit for every entry, in key order. A scan with hints reads
a part of these entries, given by one or two bounds of the keys, and leaves of their hits those that
the hints admit. So it finds a part of what the full scan finds, in the same order.
-/

namespace GraphStore

namespace Node

variable {node : Node} {space : SpaceId} {part : PartId} {p : Partition}

/-- A partition that is there and not down is scanned. -/
theorem scan_eq_ok (hup : part ∉ node.down)
    (hp : node.store.parts[(⟨space, part⟩ : Address)]? = some p) (stem : Bytes) :
    node.scan space part stem = .ok (p.scan stem) := by
  rw [scan, reading, if_neg hup, Store.scan, Store.read, hp]

/-- Below a start that is not below the stop nothing is in the range. -/
theorem range_eq_nil {start stop : Bytes} (h : (compare start stop).isGE = true) (p : Partition) :
    p.range start stop = [] := by
  refine List.filter_eq_nil_iff.2 fun (key, value) _ hwithin => ?_
  obtain ⟨hlow, hhigh⟩ := Bool.and_eq_true_iff.1 hwithin
  have hlt : compare start stop = .lt :=
    Std.TransCmp.lt_of_isLE_of_lt hlow (Ordering.isLT_iff_eq_lt.1 hhigh)
  rw [hlt] at h
  cases h

/-- A partition that is there and not down is read between two bounds. -/
theorem range_eq_ok (hup : part ∉ node.down)
    (hp : node.store.parts[(⟨space, part⟩ : Address)]? = some p) (start stop : Bytes) :
    node.range space part start stop = .ok (p.range start stop) := by
  rw [range, reading, if_neg hup, Store.range]
  split
  · next hempty => rw [range_eq_nil hempty]
  · rw [Store.read, hp]

end Node

/-- Whether a partition is there with this content, and not down. -/
structure QueryScope.Opens (scope : QueryScope) (part : PartId) (p : Partition) : Prop where
  up : part ∉ scope.node.down
  stored : scope.node.store.parts[(⟨scope.space, part⟩ : Address)]? = some p

/-- Whether the keys of an index in a partition are those of entries that have decoded values. A key
holds the length of each of its strings in four bytes. Of a string of `2 ^ 32` bytes or more the length
wraps, and an entry with such a string does not have the values that it was made of as its decoded
values. -/
def IndexLayout.OnlyEntries (layout : IndexLayout) (part : PartId) (p : Partition) : Prop :=
  ∀ key ∈ p, Key.indexStem part layout.index.id <+: key →
    ∃ values entity, layout.encodeKey part values entity = .ok key ∧
      ∀ s, .str s ∈ values → (Utf8.ofString s).length < 2 ^ 32

/-- Whether a hit is that of an index key in a partition, not yet joined with a row. -/
structure Candidate.IsOf (hit : Candidate) (layout : IndexLayout) (part : PartId) (p : Partition) :
    Prop where
  stored : hit.key ∈ p
  start : Key.indexStem part layout.index.id <+: hit.key
  read : layout.decodeKey hit.key = .ok (hit.indexValues, hit.entity)
  unjoined : hit.props = none

/-- No leading values leave no bytes. -/
theorem IndexLayout.encodeLeading_nil (columns : List Column) :
    encodeLeading columns [] = .ok [] := by
  cases columns <;> rfl

/-- The stem of a scan is that of the index with the leading values behind it. -/
theorem IndexLayout.scanStem_of_encodeLeading {layout : IndexLayout} {part : PartId}
    {leading : List Value} {lead : Bytes} (hlength : leading.length ≤ layout.index.columns.length)
    (h : encodeLeading layout.index.columns leading = .ok lead) :
    layout.scanStem part leading = .ok (Key.indexStem part layout.index.id ++ lead) := by
  unfold scanStem
  rw [if_neg (Nat.not_lt.2 hlength)]
  exact bind_eq_ok.2 ⟨lead, h, rfl⟩

namespace IndexLayout.OnlyEntries

variable {layout : IndexLayout} {part : PartId} {p : Partition}

/-- The key of an entry can be read. -/
theorem exists_decodeKey (h : layout.OnlyEntries part p) {key : Bytes} (hkey : key ∈ p)
    (hstart : Key.indexStem part layout.index.id <+: key) :
    ∃ found, layout.decodeKey key = .ok found := by
  obtain ⟨values, entity, hencode, hshort⟩ := h key hkey hstart
  exact ⟨_, decodeKey_of_short hencode hshort⟩

/-- The hit of an entry has its values, as the index keeps them. -/
theorem exists_encodeKey (h : layout.OnlyEntries part p) {hit : Candidate}
    (hof : hit.IsOf layout part p) :
    ∃ values entity, layout.encodeKey part values entity = .ok hit.key ∧
      hit.indexValues = keptValues layout.index.columns values := by
  obtain ⟨values, entity, hencode, -⟩ := h hit.key hof.stored hof.start
  exact ⟨values, entity, hencode, (of_decodeKey hencode hof.read).1⟩

end IndexLayout.OnlyEntries

namespace QueryScope

variable {scope : QueryScope} {part : PartId} {p : Partition} {layout : IndexLayout}
  {hints : List ColumnHint} {all : List Candidate}

/-- A hit has the key of its entry, and what is read from the key. -/
theorem candidate_eq_ok {entry : Entry} {hit : Candidate} :
    candidate layout entry = .ok hit ↔ hit.key = entry.1 ∧
      layout.decodeKey hit.key = .ok (hit.indexValues, hit.entity) ∧ hit.props = none := by
  obtain ⟨key, entity, indexValues, props⟩ := hit
  rw [candidate, bind_eq_ok]
  constructor
  · rintro ⟨⟨values, found⟩, hread, hmade⟩
    cases hmade
    exact ⟨rfl, hread, rfl⟩
  · rintro ⟨rfl, hread, rfl⟩
    exact ⟨(indexValues, entity), hread, rfl⟩

/-- The hits of a scan are those of the entries read that the hints admit. -/
theorem scan_eq_ok {entries : List Entry} {hits : List Candidate}
    (hread : scope.readIndex part layout hints = .ok entries) :
    scope.scan part layout hints = .ok hits ↔ ∃ found,
      entries.mapM (candidate layout) = .ok found ∧
        hits = found.filter fun hit => ColumnHint.allAdmit hints hit.indexValues := by
  rw [scan, hread]
  exact mapM_pure_eq_ok.trans (by simp only [mapM_eq_ok])

/-- Without hints all entries of the index are read. -/
theorem readIndex_nil (hopens : scope.Opens part p) :
    scope.readIndex part layout [] = .ok (p.scan (Key.indexStem part layout.index.id)) := by
  have hstem : layout.scanStem part [] = _ :=
    IndexLayout.scanStem_of_encodeLeading (Nat.zero_le _) (IndexLayout.encodeLeading_nil _)
  rw [List.append_nil] at hstem
  exact bind_eq_ok.2 ⟨_, hstem, mapError_eq_ok.2 (Node.scan_eq_ok hopens.up hopens.stored _)⟩

/-- The scan without hints makes a hit of each entry of the index. -/
theorem scan_nil_eq_ok (hopens : scope.Opens part p) :
    scope.scan part layout [] = .ok all ↔
      (p.scan (Key.indexStem part layout.index.id)).mapM (candidate layout) = .ok all := by
  have hadmit (hits : List Candidate) :
      (hits.filter fun hit => ColumnHint.allAdmit [] hit.indexValues) = hits :=
    List.filter_eq_self.2 fun _ _ => rfl
  simp only [scan_eq_ok (readIndex_nil hopens), hadmit, exists_eq_right']

/-- Where all keys of an index are those of entries, the scan without hints finds the hits of all of
them, in key order. -/
theorem exists_scan_nil (hopens : scope.Opens part p) (hentries : layout.OnlyEntries part p) :
    ∃ all, scope.scan part layout [] = .ok all ∧
      all.Pairwise (fun a b => compare a.key b.key = .lt) ∧
      ∀ hit, hit ∈ all ↔ hit.IsOf layout part p := by
  obtain ⟨all, hall⟩ : ∃ all, (p.scan (Key.indexStem part layout.index.id)).mapM
      (candidate layout) = .ok all := by
    cases hmade : (p.scan (Key.indexStem part layout.index.id)).mapM (candidate layout) with
    | ok all => exact ⟨all, rfl⟩
    | error code =>
      obtain ⟨⟨key, raw⟩, hentry, hfault⟩ := exists_of_mapM_eq_error hmade
      obtain ⟨hraw, hstart⟩ := Partition.mem_scan.1 hentry
      obtain ⟨⟨values, entity⟩, hfound⟩ :=
        hentries.exists_decodeKey (Partition.mem_iff_getElem?.2 ⟨raw, hraw⟩) hstart
      have hhit : candidate layout (key, raw) = .ok { key, entity, indexValues := values } :=
        candidate_eq_ok.2 ⟨rfl, hfound, rfl⟩
      cases hhit.symm.trans hfault
  have hpairs := mapM_eq_ok.1 hall
  refine ⟨all, (scan_nil_eq_ok hopens).2 hall, ?_, fun hit => ?_⟩
  · have hkeys : (p.scan (Key.indexStem part layout.index.id)).map (·.1) = all.map (·.key) := by
      rw [← List.forall₂_eq_eq_eq, List.forall₂_map_left_iff, List.forall₂_map_right_iff]
      exact hpairs.imp fun entry hit hmade => (candidate_eq_ok.1 hmade).1.symm
    have hsorted : ((p.scan (Key.indexStem part layout.index.id)).map (·.1)).Pairwise
        (fun a b => compare a b = .lt) := List.pairwise_map.2 (p.pairwise_scan _)
    rw [hkeys] at hsorted
    exact List.pairwise_map.1 hsorted
  · constructor
    · intro hhit
      obtain ⟨⟨key, raw⟩, hentry, hmade⟩ := exists_of_forall₂_right hpairs hhit
      obtain ⟨rfl, hfound, hprops⟩ := candidate_eq_ok.1 hmade
      obtain ⟨hraw, hstart⟩ := Partition.mem_scan.1 hentry
      exact ⟨Partition.mem_iff_getElem?.2 ⟨raw, hraw⟩, hstart, hfound, hprops⟩
    · intro hhit
      obtain ⟨raw, hraw⟩ := Partition.mem_iff_getElem?.1 hhit.stored
      have hentry := Partition.mem_scan.2 ⟨hraw, hhit.start⟩
      obtain ⟨found, hfound, hmade⟩ := exists_of_forall₂_left hpairs hentry
      have hsame := hmade.symm.trans (candidate_eq_ok.2 ⟨rfl, hhit.read, hhit.unjoined⟩)
      rwa [← Except.ok.inj hsame]

/-- A scan that reads a part of the index finds, of all hits, those of this part that the hints
admit. -/
theorem scan_eq_filter (hopens : scope.Opens part p)
    (hall : scope.scan part layout [] = .ok all) {keep : Bytes → Bool}
    (hread : scope.readIndex part layout hints =
      .ok ((p.scan (Key.indexStem part layout.index.id)).filter fun entry => keep entry.1)) :
    scope.scan part layout hints =
      .ok (all.filter fun hit => keep hit.key && ColumnHint.allAdmit hints hit.indexValues) := by
  have hsame (entry : Entry) (hit : Candidate) (hmade : candidate layout entry = .ok hit) :
      keep hit.key = keep entry.1 := congrArg keep (candidate_eq_ok.1 hmade).1
  refine (scan_eq_ok hread).2 ⟨_, mapM_filter ((scan_nil_eq_ok hopens).1 hall) hsame, ?_⟩
  rw [List.filter_filter]
  exact List.filter_congr fun hit _ => Bool.and_comm ..

/-- Hints without a range read the entries that begin with the leading values. -/
theorem readIndex_of_equal (hopens : scope.Opens part p)
    (hrange : ColumnHint.lastRange? hints = none)
    (hlength : (ColumnHint.equalValues hints).length ≤ layout.index.columns.length) {lead : Bytes}
    (hlead : IndexLayout.encodeLeading layout.index.columns (ColumnHint.equalValues hints) =
      .ok lead) :
    scope.readIndex part layout hints =
      .ok ((p.scan (Key.indexStem part layout.index.id)).filter fun entry =>
        (Key.indexStem part layout.index.id ++ lead).isPrefixOf entry.1) := by
  refine bind_eq_ok.2 ⟨_, IndexLayout.scanStem_of_encodeLeading hlength hlead, ?_⟩
  rw [hrange, ← Partition.scan_append]
  exact mapError_eq_ok.2 (Node.scan_eq_ok hopens.up hopens.stored _)

/-- Where the range of a column stops behind a stem: at its upper bound, and for strings at the end
of the stem. -/
def rangeStop (column : Column) (stem high : Bytes) : Bytes :=
  if column.ty.isVarLen then Key.upperBound stem else stem ++ high

/-- A key from a start behind a stem to where the range of a column stops begins with the stem. -/
theorem prefix_of_within_rangeStop {column : Column} {stem low high key : Bytes}
    (hstem : ∃ b ∈ stem, b ≠ 0xff)
    (h : Partition.within (stem ++ low) (rangeStop column stem high) key = true) :
    stem <+: key := by
  unfold rangeStop at h
  split at h
  · exact Partition.prefix_of_within_upperBound hstem h
  · exact Partition.prefix_of_within h

/-- Hints with a range read the entries between its bounds, behind the leading values. -/
theorem readIndex_of_range (hopens : scope.Opens part p) {low high : Value}
    (hrange : ColumnHint.lastRange? hints = some (low, high)) {column : Column}
    (hcolumn : layout.index.columns[(ColumnHint.equalValues hints).length]? = some column)
    {lead lowRaw highRaw : Bytes}
    (hlead : IndexLayout.encodeLeading layout.index.columns (ColumnHint.equalValues hints) =
      .ok lead)
    (hlow : IndexLayout.encodeValue column low = .ok lowRaw)
    (hhigh : IndexLayout.encodeValue column high = .ok highRaw) :
    scope.readIndex part layout hints =
      .ok ((p.scan (Key.indexStem part layout.index.id)).filter fun entry =>
        Partition.within (Key.indexStem part layout.index.id ++ lead ++ lowRaw)
          (rangeStop column (Key.indexStem part layout.index.id ++ lead) highRaw) entry.1) := by
  have hlength := Nat.le_of_lt (List.getElem?_eq_some_iff.1 hcolumn).1
  have hindex (key : Bytes) (hwithin : Partition.within
      (Key.indexStem part layout.index.id ++ lead ++ lowRaw)
      (rangeStop column (Key.indexStem part layout.index.id ++ lead) highRaw) key = true) :
      Key.indexStem part layout.index.id <+: key := by
    have hbyte := IndexLayout.exists_ne_of_indexStem part layout.index.id lead
    exact (List.prefix_append _ lead).trans (prefix_of_within_rangeStop hbyte hwithin)
  refine bind_eq_ok.2 ⟨_, IndexLayout.scanStem_of_encodeLeading hlength hlead, ?_⟩
  rw [hrange, ← Partition.range_eq_filter_scan hindex]
  simp only [hcolumn, pure_bind]
  refine bind_eq_ok.2 ⟨lowRaw, hlow, ?_⟩
  unfold rangeStop
  split
  · exact mapError_eq_ok.2 (Node.range_eq_ok hopens.up hopens.stored _ _)
  · exact bind_eq_ok.2 ⟨highRaw, hhigh, mapError_eq_ok.2 (Node.range_eq_ok hopens.up hopens.stored _ _)⟩

end QueryScope

end GraphStore
