import GraphStore.Mutation.Batch
import GraphStore.Proofs.Index.RowId
import GraphStore.Proofs.Storage.Partition

/-!
# Rows and index entries of a partition

Two properties tie the index entries of a partition to its rows. No entry is missing: every row can
be read, and its key in every index is stored. No entry is stale: every stored index key is a key of
some stored row. What puts and removals do to either is worked out here, on the content alone.
-/

namespace GraphStore

namespace Site

variable {site : Site} {a b : RowId} {raw key entry : Bytes} {keys : Bytes → Prop}

/-- Whether stored bytes read as a row with these properties. -/
def Reads (site : Site) (row : RowId) (raw : Bytes) (props : Props) : Prop :=
  ∃ schema values, site.catalog.schema? site.space row.owner = some schema ∧
    Row.decode schema raw = .ok values ∧ Props.ofRow schema values = props

/-- Whether stored bytes read as a row that has this index key. -/
def HasEntry (site : Site) (row : RowId) (raw entry : Bytes) : Prop :=
  ∃ props index, site.Reads row raw props ∧ site.Indexes row index ∧
    site.entryKey index row props = .ok entry

/-- Whether this is an index key of the row, whatever its properties. -/
def IsEntryOf (site : Site) (row : RowId) (entry : Bytes) : Prop :=
  ∃ index props, site.Indexes row index ∧ site.entryKey index row props = .ok entry

/-- Whether stored bytes read as a row whose key in every index is among the given ones. -/
def Covered (site : Site) (row : RowId) (raw : Bytes) (keys : Bytes → Prop) : Prop :=
  ∃ props, site.Reads row raw props ∧
    ∀ index, site.Indexes row index → ∃ entry, site.entryKey index row props = .ok entry ∧ keys entry

/-- Whether stored bytes, if they read as a row at all, have a key in every index over its tag or
edge type. -/
def Keyable (site : Site) (row : RowId) (raw : Bytes) : Prop :=
  ∀ props index, site.Reads row raw props → site.Indexes row index →
    ∃ entry, site.entryKey index row props = .ok entry

/-- Whether stored bytes read as a row with a property that a column of an index over its tag or
edge type does not take. -/
def Clashes (site : Site) (row : RowId) (raw : Bytes) : Prop :=
  ∃ props index, ∃ (j : Nat) (column : Column), site.Reads row raw props ∧ site.Indexes row index ∧
    index.columns[j]? = some column ∧
    ¬ IndexLayout.Takes j column ((props.get? column.name).getD .null)

/-- Stored bytes have one reading. -/
theorem Reads.unique {props others : Props} (h : site.Reads a raw props)
    (h' : site.Reads a raw others) : props = others := by
  obtain ⟨schema, values, hschema, hvalues, rfl⟩ := h
  obtain ⟨schema', values', hschema', hvalues', rfl⟩ := h'
  obtain rfl := Option.some.inj (hschema.symm.trans hschema')
  obtain rfl := Except.ok.inj (hvalues.symm.trans hvalues')
  rfl

/-- The key of a row's properties is an index key of the row. -/
theorem HasEntry.isEntryOf (h : site.HasEntry a raw entry) : site.IsEntryOf a entry := by
  obtain ⟨props, index, -, hindex, hentry⟩ := h
  exact ⟨index, props, hindex, hentry⟩

/-- An index key is no key of a row. -/
theorem IsEntryOf.head? (h : site.IsEntryOf a entry) : entry.head? = some Key.indexKind := by
  obtain ⟨index, props, -, hentry⟩ := h
  exact head?_of_entryKey hentry

/-- Rows with an index key in common have the same key. -/
theorem IsEntryOf.rowKey_eq (hregistered : site.catalog.Registered) (h : site.IsEntryOf a entry)
    (h' : site.IsEntryOf b entry) : site.rowKey a = site.rowKey b := by
  obtain ⟨index, props, hindex, hentry⟩ := h
  obtain ⟨other, others, hother, hentry'⟩ := h'
  exact rowKey_of_entryKey hregistered hindex hother hentry hentry'

/-- Rows of the same key read alike. -/
theorem reads_congr {props : Props} (h : site.rowKey a = .ok key) (h' : site.rowKey b = .ok key) :
    site.Reads a raw props ↔ site.Reads b raw props := by
  rw [Reads, Reads, (alike_of_rowKey h h').1]

/-- Rows of the same key that are stored alike have the same index keys. -/
theorem hasEntry_congr (h : site.rowKey a = .ok key) (h' : site.rowKey b = .ok key) :
    site.HasEntry a raw entry ↔ site.HasEntry b raw entry := by
  simp only [HasEntry, reads_congr h h', indexes_congr h h', entryKey_congr h h']

/-- Rows of the same key that are stored alike are covered alike. -/
theorem covered_congr (h : site.rowKey a = .ok key) (h' : site.rowKey b = .ok key) :
    site.Covered a raw keys ↔ site.Covered b raw keys := by
  simp only [Covered, reads_congr h h', indexes_congr h h', entryKey_congr h h']

/-- More keys cover more. -/
theorem Covered.mono {others : Bytes → Prop} (h : site.Covered a raw keys)
    (hkeys : ∀ entry, site.IsEntryOf a entry → keys entry → others entry) :
    site.Covered a raw others := by
  obtain ⟨props, hreads, hall⟩ := h
  refine ⟨props, hreads, fun index hindex => ?_⟩
  obtain ⟨entry, hentry, hmem⟩ := hall index hindex
  exact ⟨entry, hentry, hkeys entry ⟨index, props, hindex, hentry⟩ hmem⟩

/-- The index keys of a covered row are among the given ones. -/
theorem Covered.mem (h : site.Covered a raw keys) (hentry : site.HasEntry a raw entry) :
    keys entry := by
  obtain ⟨props, hreads, hall⟩ := h
  obtain ⟨others, index, hreads', hindex, hkey⟩ := hentry
  obtain rfl := hreads.unique hreads'
  obtain ⟨found, hfound, hmem⟩ := hall index hindex
  obtain rfl := Except.ok.inj (hkey.symm.trans hfound)
  exact hmem

/-- A covered row has a key in every index. -/
theorem Covered.keyable (h : site.Covered a raw keys) : site.Keyable a raw := by
  intro props index hreads hindex
  obtain ⟨others, hreads', hall⟩ := h
  obtain rfl := hreads.unique hreads'
  obtain ⟨entry, hentry, -⟩ := hall index hindex
  exact ⟨entry, hentry⟩

/-- A stored row lacks a key in some index when it clashes with one. -/
theorem not_keyable_iff (h : site.rowKey a = .ok key) :
    ¬ site.Keyable a raw ↔ site.Clashes a raw := by
  constructor
  · intro hnot
    by_contra hnone
    refine hnot fun props index hreads hindex => (exists_entryKey h hindex.1).2 ?_
    intro j column hcolumn
    by_contra htakes
    exact hnone ⟨props, index, j, column, hreads, hindex, hcolumn, htakes⟩
  · rintro ⟨props, index, j, column, hreads, hindex, hcolumn, htakes⟩ hkeyable
    exact htakes
      ((exists_entryKey h hindex.1).1 (hkeyable props index hreads hindex) j column hcolumn)

end Site

/-- A row to be put with its index entries. -/
structure FullRow where
  row : RowId
  key : Bytes
  raw : Bytes
  keys : List Bytes

/-- The entries of a row: its own and those of the indexes. -/
def FullRow.entries (r : FullRow) : List Entry := (r.key, r.raw) :: indexEntries r.keys

namespace Site

/-- A row with exactly the index entries that belong to it. -/
structure IsFull (site : Site) (r : FullRow) : Prop where
  key : site.rowKey r.row = .ok r.key
  covered : site.Covered r.row r.raw (· ∈ r.keys)
  tight : ∀ entry ∈ r.keys, site.HasEntry r.row r.raw entry

/-- A batch of rows, each with the index entries that belong to it. -/
structure MadeOf (site : Site) (batch : List Entry) (rows : List FullRow) : Prop where
  full : ∀ r ∈ rows, site.IsFull r
  mem_iff : ∀ entry, entry ∈ batch ↔ ∃ r ∈ rows, entry ∈ r.entries

/-- Entries of one row make a batch of it. -/
theorem IsFull.madeOf {site : Site} {r : FullRow} (h : site.IsFull r) :
    site.MadeOf r.entries [r] where
  full other hother := List.mem_singleton.1 hother ▸ h
  mem_iff entry := by simp

/-- A partition in which every row can be read and has an entry in each of its indexes. -/
def Complete (site : Site) (p : Partition) : Prop :=
  ∀ row key raw, site.rowKey row = .ok key → p[key]? = some raw → site.Covered row raw (· ∈ p)

/-- A partition in which every index key is a key of a stored row. -/
def StaleFree (site : Site) (p : Partition) : Prop :=
  ∀ entry ∈ p, entry.head? = some Key.indexKind → ∃ row key raw, site.rowKey row = .ok key ∧
    p[key]? = some raw ∧ site.HasEntry row raw entry

/-- A partition with one row and the index entries that belong to it has no entry missing and none
stale. -/
theorem IsFull.exact {site : Site} {r : FullRow} {p : Partition} (h : site.IsFull r)
    (hkeys : ∀ key, key ∈ p ↔ key = r.key ∨ key ∈ r.keys) (hraw : p[r.key]? = some r.raw) :
    site.Complete p ∧ site.StaleFree p := by
  constructor
  · intro row key raw hkey hget
    rcases (hkeys key).1 (Partition.mem_iff_getElem?.2 ⟨raw, hget⟩) with rfl | hentry
    · obtain rfl := Option.some.inj (hraw.symm.trans hget)
      exact ((covered_congr h.key hkey).1 h.covered).mono fun entry _ hmem =>
        (hkeys entry).2 (.inr hmem)
    · exact absurd (h.tight key hentry).isEntryOf.head? (head?_of_rowKey hkey)
  · intro entry hentry hhead
    rcases (hkeys entry).1 hentry with rfl | hentry
    · exact absurd hhead (head?_of_rowKey h.key)
    · exact ⟨r.row, r.key, r.raw, h.key, hraw, h.tight entry hentry⟩

/-- Whether a key is that of a row of some sort, or of an index entry of one. -/
def KeyOf (site : Site) (sort : RowId → Prop) (key : Bytes) : Prop :=
  ∃ row, sort row ∧ (site.rowKey row = .ok key ∨ site.IsEntryOf row key)

/-- A partition that holds keys of rows of some sort and of their index entries only. -/
def OnlyOf (site : Site) (sort : RowId → Prop) (p : Partition) : Prop :=
  ∀ key ∈ p, site.KeyOf sort key

section Put

variable {site : Site} {p : Partition} {batch : List Entry} {rows : List FullRow}
  {row : RowId} {key raw entry : Bytes}

/-- A row's key in a batch is that of one of its rows. -/
theorem MadeOf.full_of_mem (h : site.MadeOf batch rows) (hkey : site.rowKey row = .ok key)
    (hmem : (key, raw) ∈ batch) : ∃ r ∈ rows, r.key = key ∧ r.raw = raw := by
  obtain ⟨r, hr, hentry⟩ := (h.mem_iff _).1 hmem
  rcases List.mem_cons.1 hentry with heq | hentry
  · cases heq
    exact ⟨r, hr, rfl, rfl⟩
  · obtain ⟨other, hother, heq⟩ := List.mem_map.1 hentry
    cases heq
    exact absurd ((h.full r hr).tight key hother).isEntryOf.head? (head?_of_rowKey hkey)

/-- An index key in a batch belongs to one of its rows. -/
theorem MadeOf.full_of_index (h : site.MadeOf batch rows)
    (hmem : entry ∈ Partition.keysOf batch) (hhead : entry.head? = some Key.indexKind) :
    ∃ r ∈ rows, entry ∈ r.keys := by
  obtain ⟨⟨key, value⟩, hkey, rfl⟩ := List.mem_map.1 hmem
  obtain ⟨r, hr, hentry⟩ := (h.mem_iff _).1 hkey
  rcases List.mem_cons.1 hentry with heq | hentry
  · cases heq
    exact absurd hhead (head?_of_rowKey (h.full r hr).key)
  · obtain ⟨other, hother, heq⟩ := List.mem_map.1 hentry
    cases heq
    exact ⟨r, hr, hother⟩

/-- A batch has the key of each of its rows. -/
theorem MadeOf.key_mem (h : site.MadeOf batch rows) {r : FullRow} (hr : r ∈ rows) :
    (r.key, r.raw) ∈ batch :=
  (h.mem_iff _).2 ⟨r, hr, List.mem_cons_self⟩

/-- A batch has the index keys of each of its rows. -/
theorem MadeOf.entry_mem (h : site.MadeOf batch rows) {r : FullRow} (hr : r ∈ rows)
    (hentry : entry ∈ r.keys) : entry ∈ Partition.keysOf batch :=
  List.mem_map.2 ⟨(entry, []), (h.mem_iff _).2
    ⟨r, hr, List.mem_cons_of_mem _ (List.mem_map.2 ⟨entry, hentry, rfl⟩)⟩, rfl⟩

/-- Batches one after another are made of the rows of both. -/
theorem MadeOf.append {others : List FullRow} {more : List Entry} (h : site.MadeOf batch rows)
    (h' : site.MadeOf more others) : site.MadeOf (batch ++ more) (rows ++ others) where
  full r hr := (List.mem_append.1 hr).elim (h.full r) (h'.full r)
  mem_iff entry := by
    rw [List.mem_append, h.mem_iff, h'.mem_iff]
    constructor
    · rintro (⟨r, hr, hentry⟩ | ⟨r, hr, hentry⟩)
      · exact ⟨r, List.mem_append_left _ hr, hentry⟩
      · exact ⟨r, List.mem_append_right _ hr, hentry⟩
    · rintro ⟨r, hr, hentry⟩
      exact (List.mem_append.1 hr).imp (fun hr => ⟨r, hr, hentry⟩) fun hr => ⟨r, hr, hentry⟩

/-- A put leaves no entry missing if the rows it leaves alone are covered afterwards. -/
theorem complete_put (hbatch : site.MadeOf batch rows)
    (hold : ∀ row key raw, site.rowKey row = .ok key → key ∉ Partition.keysOf batch →
      p[key]? = some raw → site.Covered row raw (· ∈ p.put batch)) :
    site.Complete (p.put batch) := by
  intro row key raw hkey hraw
  by_cases hmem : key ∈ Partition.keysOf batch
  · obtain ⟨r, hr, rfl, rfl⟩ := hbatch.full_of_mem hkey (Partition.mem_of_getElem?_put hraw hmem)
    have hfull := hbatch.full r hr
    refine (covered_congr hfull.key hkey).1 (hfull.covered.mono fun entry _ hentry => ?_)
    exact Partition.mem_put.2 (.inl (hbatch.entry_mem hr hentry))
  · exact hold row key raw hkey hmem (Partition.getElem?_put_of_notMem hmem p ▸ hraw)

/-- Putting rows with their entries leaves none missing. -/
theorem Complete.put (h : site.Complete p) (hbatch : site.MadeOf batch rows) :
    site.Complete (p.put batch) :=
  complete_put hbatch fun row key raw hkey _ hraw =>
    (h row key raw hkey hraw).mono fun _ _ hentry => Partition.mem_put.2 (.inr hentry)

/-- Whether a put drops no index key of a row: whatever stood under the row's key, before the put
or within it, has no index key that the row which stays does not have. -/
def KeepsEntries (site : Site) (p : Partition) (batch : List Entry) : Prop :=
  ∀ row key raw old, site.rowKey row = .ok key → (p.put batch)[key]? = some raw →
    (p[key]? = some old ∨ (key, old) ∈ batch) →
      ∀ entry, site.HasEntry row old entry → site.HasEntry row raw entry

/-- A put into a partition without missing and stale entries leaves no stale entry exactly when it
drops no index key of a row. -/
theorem staleFree_put_iff (hregistered : site.catalog.Registered) (hcomplete : site.Complete p)
    (hfresh : site.StaleFree p) (hbatch : site.MadeOf batch rows) :
    site.StaleFree (p.put batch) ↔ site.KeepsEntries p batch := by
  have hfinal {key : Bytes} (hmem : key ∈ p.put batch) : ∃ raw, (p.put batch)[key]? = some raw :=
    Partition.mem_iff_getElem?.1 hmem
  constructor
  · intro hstale row key raw old hkey hraw hold entry hentry
    have hmem : entry ∈ p.put batch := by
      rcases hold with hold | hold
      · exact Partition.mem_put.2 (.inr ((hcomplete row key old hkey hold).mem hentry))
      · obtain ⟨r, hr, rfl, rfl⟩ := hbatch.full_of_mem hkey hold
        have hfull := hbatch.full r hr
        have hcovered := (covered_congr hfull.key hkey).1 hfull.covered
        exact Partition.mem_put.2 (.inl (hbatch.entry_mem hr (hcovered.mem hentry)))
    obtain ⟨other, key', raw', hkey', hraw', hentry'⟩ :=
      hstale entry hmem hentry.isEntryOf.head?
    have hsame := hentry'.isEntryOf.rowKey_eq hregistered hentry.isEntryOf
    rw [hkey, hkey'] at hsame
    cases hsame
    obtain rfl := Option.some.inj (hraw.symm.trans hraw')
    exact (hasEntry_congr hkey' hkey).1 hentry'
  · intro hkeeps entry hmem hhead
    by_cases hput : entry ∈ Partition.keysOf batch
    · obtain ⟨r, hr, hentry⟩ := hbatch.full_of_index hput hhead
      have hfull := hbatch.full r hr
      have hkeyMem : r.key ∈ p.put batch :=
        Partition.mem_put.2 (.inl (List.mem_map.2 ⟨_, hbatch.key_mem hr, rfl⟩))
      obtain ⟨raw, hraw⟩ := hfinal hkeyMem
      exact ⟨r.row, r.key, raw, hfull.key, hraw,
        hkeeps r.row r.key raw r.raw hfull.key hraw (.inr (hbatch.key_mem hr)) entry
          (hfull.tight entry hentry)⟩
    · have hold : entry ∈ p := (Partition.mem_put.1 hmem).resolve_left hput
      obtain ⟨row, key, old, hkey, hraw, hentry⟩ := hfresh entry hold hhead
      have hkeyMem : key ∈ p.put batch := Partition.mem_put.2
        (.inr (Partition.mem_iff_getElem?.2 ⟨old, hraw⟩))
      obtain ⟨raw, hraw'⟩ := hfinal hkeyMem
      exact ⟨row, key, raw, hkey, hraw', hkeeps row key raw old hkey hraw' (.inl hraw) entry hentry⟩

end Put

section Remove

variable {site : Site} {p after : Partition} {removes : List Bytes} {r : FullRow}

/-- A removal of rows with their index entries: nothing comes in, rows that stay keep their index
entries, and rows that go take theirs along. -/
structure Shrinks (site : Site) (p after : Partition) : Prop where
  sub : ∀ key raw : Bytes, after[key]? = some raw → p[key]? = some raw
  entries : ∀ row key, site.rowKey row = .ok key → key ∈ after → ∀ entry,
    site.IsEntryOf row entry → entry ∈ p → entry ∈ after
  rows : ∀ row key raw entry, site.rowKey row = .ok key → p[key]? = some raw →
    site.HasEntry row raw entry → entry ∈ after → key ∈ after

/-- Removing rows with their index entries leaves no entry missing. -/
theorem Complete.shrinks (h : site.Complete p) (hafter : site.Shrinks p after) :
    site.Complete after := by
  intro row key raw hkey hraw
  have hmem : key ∈ after := Partition.mem_iff_getElem?.2 ⟨raw, hraw⟩
  exact (h row key raw hkey (hafter.sub key raw hraw)).mono (hafter.entries row key hkey hmem)

/-- Removing rows with their index entries leaves no stale entry. -/
theorem StaleFree.shrinks (h : site.StaleFree p) (hafter : site.Shrinks p after) :
    site.StaleFree after := by
  intro entry hmem hhead
  obtain ⟨value, hvalue⟩ := Partition.mem_iff_getElem?.1 hmem
  have hold : entry ∈ p := Partition.mem_iff_getElem?.2 ⟨value, hafter.sub entry value hvalue⟩
  obtain ⟨row, key, raw, hkey, hraw, hentry⟩ := h entry hold hhead
  have hstays := hafter.rows row key raw entry hkey hraw hentry hmem
  obtain ⟨raw', hraw'⟩ := Partition.mem_iff_getElem?.1 hstays
  obtain rfl := Option.some.inj (hraw.symm.trans (hafter.sub key raw' hraw'))
  exact ⟨row, key, raw, hkey, hraw', hentry⟩

/-- Removed keys are gone from what stays. -/
theorem getElem?_of_remove {key raw : Bytes} (h : (p.remove removes)[key]? = some raw) :
    key ∉ removes ∧ p[key]? = some raw := by
  rw [Partition.getElem?_remove] at h
  split at h
  · cases h
  · next hmem => exact ⟨hmem, h⟩

/-- The replacement of a row: index keys of it are removed first, among them those of the old row
that the new one does not have. -/
structure Replaces (site : Site) (p : Partition) (removes : List Bytes) (r : FullRow) : Prop where
  full : site.IsFull r
  own : ∀ entry ∈ removes, site.IsEntryOf r.row entry
  old : ∀ old entry, p[r.key]? = some old → site.HasEntry r.row old entry →
    entry ∈ removes ∨ entry ∈ r.keys

/-- Replacing a row leaves no entry missing. -/
theorem Complete.replace (hregistered : site.catalog.Registered) (h : site.Complete p)
    (hreplaces : site.Replaces p removes r) : site.Complete ((p.remove removes).put r.entries) := by
  have hputs := hreplaces.full.madeOf
  refine complete_put hputs fun row key raw hkey hmem hraw => ?_
  refine (h row key raw hkey (getElem?_of_remove hraw).2).mono fun entry hentry hold => ?_
  have hstays : entry ∉ removes := by
    -- A removed index key belongs to the row that is put.
    intro hremove
    have hsame := hentry.rowKey_eq hregistered (hreplaces.own entry hremove)
    rw [hkey, hreplaces.full.key] at hsame
    cases hsame
    exact hmem (List.mem_map.2 ⟨_, hputs.key_mem (List.mem_singleton_self r), rfl⟩)
  obtain ⟨value, hvalue⟩ := Partition.mem_iff_getElem?.1 hold
  refine Partition.mem_put.2 (.inr (Partition.mem_iff_getElem?.2 ⟨value, ?_⟩))
  rw [Partition.getElem?_remove, if_neg hstays, hvalue]

/-- Replacing a row leaves no stale entry. -/
theorem StaleFree.replace (h : site.StaleFree p) (hreplaces : site.Replaces p removes r) :
    site.StaleFree ((p.remove removes).put r.entries) := by
  have hr := List.mem_singleton_self r
  have hfull := hreplaces.full
  have hputs := hfull.madeOf
  intro entry hmem hhead
  by_cases hput : entry ∈ Partition.keysOf r.entries
  · obtain ⟨found, hfound, hentry⟩ := hputs.full_of_index hput hhead
    rw [List.mem_singleton.1 hfound] at hentry
    have hkeyMem : r.key ∈ Partition.keysOf r.entries := List.mem_map.2 ⟨_, hputs.key_mem hr, rfl⟩
    have hthere : r.key ∈ (p.remove removes).put r.entries := Partition.mem_put.2 (.inl hkeyMem)
    obtain ⟨raw, hraw⟩ := Partition.mem_iff_getElem?.1 hthere
    obtain ⟨found, hfound, -, rfl⟩ :=
      hputs.full_of_mem hfull.key (Partition.mem_of_getElem?_put hraw hkeyMem)
    rw [List.mem_singleton.1 hfound] at hraw
    exact ⟨r.row, r.key, r.raw, hfull.key, hraw, hfull.tight entry hentry⟩
  · have hremoved : entry ∈ p.remove removes := (Partition.mem_put.1 hmem).resolve_left hput
    obtain ⟨value, hvalue⟩ := Partition.mem_iff_getElem?.1 hremoved
    obtain ⟨hstays, hvalue⟩ := getElem?_of_remove hvalue
    obtain ⟨row, key, raw, hkey, hraw, hentry⟩ :=
      h entry (Partition.mem_iff_getElem?.2 ⟨value, hvalue⟩) hhead
    by_cases hsame : key = r.key
    · subst hsame
      rcases hreplaces.old raw entry hraw ((hasEntry_congr hkey hfull.key).1 hentry) with hgone | hkept
      · exact absurd hgone hstays
      · exact absurd (hputs.entry_mem hr hkept) hput
    · have hother : key ∉ Partition.keysOf r.entries := by
        intro hmem
        obtain ⟨⟨other, value⟩, hother, rfl⟩ := List.mem_map.1 hmem
        obtain ⟨found, hfound, heq, -⟩ := hputs.full_of_mem hkey hother
        rw [List.mem_singleton.1 hfound] at heq
        exact hsame heq.symm
      have hkept : key ∉ removes := fun hremove =>
        head?_of_rowKey hkey (hreplaces.own key hremove).head?
      refine ⟨row, key, raw, hkey, ?_, hentry⟩
      rw [Partition.getElem?_put_of_notMem hother, Partition.getElem?_remove, if_neg hkept, hraw]

/-- What a mutation can do to a partition: nothing, a put of rows, the replacement of a row, or a
removal, always together with the index entries. -/
inductive Change (site : Site) (p : Partition) : Partition → Prop where
  | same : Change site p p
  | put {batch : List Entry} {rows : List FullRow} (hbatch : site.MadeOf batch rows) :
      Change site p (p.put batch)
  | replace {removes : List Bytes} {r : FullRow} (hreplaces : site.Replaces p removes r) :
      Change site p ((p.remove removes).put r.entries)
  | shrink {after : Partition} (hafter : site.Shrinks p after) : Change site p after

/-- No change leaves an index entry missing. -/
theorem Complete.change (hregistered : site.catalog.Registered) (h : site.Complete p)
    (hchange : site.Change p after) : site.Complete after := by
  cases hchange with
  | same => exact h
  | put hbatch => exact h.put hbatch
  | replace hreplaces => exact h.replace hregistered hreplaces
  | shrink hafter => exact h.shrinks hafter

end Remove

end Site

end GraphStore
