import GraphStore.Proofs.Cache.Uncached
import GraphStore.Proofs.Key.Rows
import GraphStore.Proofs.Mutation.Prepared

/-!
# Deletions with and without a cache

To forget the cached rows of a vertex a node reads which rows are stored, also where it would otherwise
delete them unread. That makes a difference to a partition that is not there alone: the read is
answered before later ids are looked at, and before anything is written.
-/

namespace GraphStore

namespace Node

variable {node other : Node} {space : SpaceId} (extra : Nat)

/-- Whether a write removes a range from a partition that is not there. -/
def Idle (node : Node) (space : SpaceId) (entry : PartId × Write) : Prop :=
  node.store.parts[(⟨space, entry.1⟩ : Address)]? = none ∧
    ∃ start stop, entry.2 = .removeRange start stop

/-- Whether a write is idle depends on the setting alone. -/
theorem Idle.of_sameSetting {entry : PartId × Write} (h : node.Idle space entry)
    (hsame : SameSetting node other) : other.Idle space entry := by
  refine ⟨Option.isNone_iff_eq_none.1 (Option.isSome_eq_false_iff.1 ?_), h.2⟩
  rw [hsame.parts, h.1]
  rfl

/-- Idle writes are counted, and do nothing else. -/
theorem performAll_idle (hdown : node.down = []) {writes : List (PartId × Write)}
    (h : ∀ entry ∈ writes, node.Idle space entry) :
    (node.uncached extra).performAll space writes = node.uncached (extra + writes.length) := by
  induction writes generalizing extra with
  | nil => rfl
  | cons entry writes ih =>
    obtain ⟨⟨habsent, start, stop, hwrite⟩, hwrites⟩ := List.forall_mem_cons.1 h
    obtain ⟨part, write⟩ := entry
    obtain rfl : write = .removeRange start stop := hwrite
    have hstep : ((node.uncached extra).perform space part (.removeRange start stop)).1 =
        node.uncached (extra + 1) := by
      have hup : part ∉ (node.uncached extra).down := by
        have hsame : (node.uncached extra).down = node.down := rfl
        rw [hsame, hdown]
        exact List.not_mem_nil
      have hparts : (node.uncached extra).store.parts[(⟨space, part⟩ : Address)]? = none := habsent
      simp only [perform, if_neg hup, Store.removeRange, Store.write, hparts]
      cases (node.uncached extra).store.failures[(⟨space, part⟩ : Address)]? <;> rfl
    have hrest : (node.uncached extra).performAll space
        ((part, .removeRange start stop) :: writes) =
          ((node.uncached extra).perform space part (.removeRange start stop)).1.performAll space
            writes := rfl
    rw [hrest, hstep, ih (extra + 1) hwrites, List.length_cons, Nat.add_assoc, Nat.add_comm 1]

/-- Idle writes among others are counted, and do nothing else. -/
theorem performAll_flatMap_uncached {β : Type} (hdown : node.down = []) {pieces : List β}
    {made given : β → List (PartId × Write)}
    (h : ∀ piece ∈ pieces, made piece = given piece ∨
      given piece = [] ∧ ∀ entry ∈ made piece, node.Idle space entry) :
    ∃ more, (node.uncached extra).performAll space (pieces.flatMap made) =
      (node.performAll space (pieces.flatMap given)).uncached (extra + more) := by
  induction pieces generalizing node extra with
  | nil => exact ⟨0, rfl⟩
  | cons piece pieces ih =>
    have happend (start : Node) (first rest : List (PartId × Write)) :
        start.performAll space (first ++ rest) =
          (start.performAll space first).performAll space rest := List.foldl_append
    obtain ⟨hpiece, hpieces⟩ := List.forall_mem_cons.1 h
    rw [List.flatMap_cons, List.flatMap_cons, happend, happend]
    rcases hpiece with hsame | ⟨hnone, hidle⟩
    · have hsetting := node.performAll_sameSetting space (given piece)
      rw [hsame, performAll_uncached]
      exact ih extra (hsetting.down.trans hdown) fun other hother =>
        (hpieces other hother).imp_right fun hother =>
          ⟨hother.1, fun entry hentry => (hother.2 entry hentry).of_sameSetting hsetting⟩
    · obtain ⟨more, hmore⟩ := ih (extra + (made piece).length) hdown hpieces
      refine ⟨(made piece).length + more, ?_⟩
      rw [hnone, performAll_idle extra hdown hidle, hmore, Nat.add_assoc]
      rfl

end Node

namespace DeleteVertices

/-- Whether a deletion reads rows for the cache alone, from a partition that is not there. -/
structure Misses (req : DeleteVertices) (node : Node) (part : PartId) (vidLen : Nat)
    (vids : List VertexId) : Prop where
  cached : node.cache.isSome = true
  layout_eq : node.layout req.space false = .ok ⟨vidLen, []⟩
  vids_eq : req.parts[part]? = some vids
  vids_ne : vids ≠ []
  absent : node.store.parts[(⟨req.space, part⟩ : Address)]? = none

/-- How a partition that is not there answers when rows are read: only the first id is encoded
before. -/
def readCode (vidLen : Nat) (vids : List VertexId) : ErrorCode :=
  if ∀ vid ∈ vids.head?, (Utf8.ofString vid).length ≤ vidLen then .partNotFound else .invalidVid

/-- How a partition that is not there answers when rows are removed unread: all ids are encoded
before. -/
def removeCode (req : DeleteVertices) (node : Node) (part : PartId) (vidLen : Nat)
    (vids : List VertexId) : ErrorCode :=
  if ∀ vid ∈ vids, (Utf8.ofString vid).length ≤ vidLen then
    (node.writeCode req.space part).toErrorCode
  else .invalidVid

/-- The units of one partition of a deletion. -/
def partUnits (req : DeleteVertices) (node : Node) (part : PartId) (vids : List VertexId) :
    List WorkUnit :=
  unitsOr part ((node.layout req.space false).bind fun layout => req.prepare node layout part vids)

variable {req : DeleteVertices} {node : Node} {layout : SpaceLayout} {part : PartId} {vidLen : Nat}
  {vids : List VertexId} (extra : Nat)

/-- Without indexes a row has no index keys. -/
theorem indexKeys_of_nil (vid : VertexId) (row : TagId × Bytes) :
    req.indexKeys node ⟨vidLen, []⟩ part vid row = .ok [] := by
  unfold indexKeys
  split
  · rfl
  · split <;> rfl

/-- Without indexes and without a cache vertices are removed unread. -/
theorem removal_uncached_of_nil (vid : VertexId) :
    req.removal (node.uncached extra) ⟨vidLen, []⟩ part vid =
      (Key.vertexStem vidLen part vid).map (·, []) := by
  unfold removal
  cases Key.vertexStem vidLen part vid <;> rfl

/-- What is removed with a vertex does not depend on the cache, unless rows are read for it from a
partition that is not there. -/
theorem removal_uncached (hdown : node.down = []) (h : node.cache = none ∨ layout.indexes ≠ [] ∨
      (node.store.parts[(⟨req.space, part⟩ : Address)]?).isSome = true) (vid : VertexId) :
    req.removal (node.uncached extra) layout part vid = req.removal node layout part vid := by
  obtain ⟨vidLen, indexes⟩ := layout
  have hscan (stem : Bytes) : (node.uncached extra).scan req.space part stem =
      node.scan req.space part stem := rfl
  have hnone : (node.uncached extra).cache = none := rfl
  rcases h with hcache | hindexes | hthere
  · unfold removal storedRows
    rw [hnone, hcache]
    rfl
  · have hempty : indexes.isEmpty = false := List.isEmpty_eq_false_iff.2 hindexes
    unfold removal storedRows
    simp only [hempty, Bool.false_and, hscan]
    rfl
  · cases indexes with
    | cons index indexes => rfl
    | nil =>
      obtain ⟨p, hp⟩ := Option.isSome_iff_exists.1 hthere
      have hstored (stem : Bytes) :
          ∃ rows, req.storedRows node ⟨vidLen, []⟩ part stem = .ok rows := by
        have hread : node.scan req.space part stem = .ok (p.scan stem) := by
          rw [Node.scan, Node.reading, hdown, if_neg List.not_mem_nil, Store.scan, Store.read, hp]
        unfold storedRows
        rw [hread]
        split <;> exact ⟨_, rfl⟩
      have hkeys (rows : List (TagId × Bytes)) :
          ∃ keys, rows.mapM (req.indexKeys node ⟨vidLen, []⟩ part vid) = .ok keys ∧
            keys.flatten = [] := by
        refine ⟨rows.map fun _ => [], mapM_eq_ok.2 ?_, ?_⟩
        · rw [List.forall₂_map_right_iff]
          exact List.forall₂_same.2 fun row _ => indexKeys_of_nil vid row
        · refine List.flatten_eq_nil_iff.2 fun keys hkeys => ?_
          obtain ⟨row, -, hnil⟩ := List.mem_map.1 hkeys
          exact hnil.symm
      rw [removal_uncached_of_nil]
      unfold removal
      cases Key.vertexStem vidLen part vid with
      | error code => rfl
      | ok stem =>
        obtain ⟨rows, hrows⟩ := hstored stem
        obtain ⟨keys, hkeys, hnil⟩ := hkeys rows
        refine (bind_eq_ok.2 ⟨stem, rfl, bind_eq_ok.2 ⟨rows, hrows, bind_eq_ok.2 ⟨keys, hkeys, ?_⟩⟩⟩).symm
        rw [hnil]
        rfl

/-- What is prepared for a partition does not depend on the cache, unless the partition is missed. -/
theorem prepare_uncached (hdown : node.down = []) (hlayout : node.layout req.space false = .ok layout)
    (hvids : req.parts[part]? = some vids) (hmiss : ¬ req.Misses node part layout.vidLen vids) :
    req.prepare (node.uncached extra) layout part vids = req.prepare node layout part vids := by
  have hremovals : vids.mapM (req.removal (node.uncached extra) layout part) =
      vids.mapM (req.removal node layout part) := by
    cases vids with
    | nil => rfl
    | cons vid vids =>
      obtain ⟨vidLen, indexes⟩ := layout
      refine mapM_congr fun other _ => removal_uncached extra hdown ?_ other
      cases hcache : node.cache with
      | none => exact .inl rfl
      | some cache =>
        cases indexes with
        | cons index indexes => exact .inr (.inl (List.cons_ne_nil _ _))
        | nil =>
          refine .inr (.inr (Option.isSome_iff_ne_none.2 fun habsent => hmiss ?_))
          exact ⟨by rw [hcache]; rfl, hlayout, hvids, List.cons_ne_nil _ _, habsent⟩
  unfold prepare
  rw [hremovals]

/-- For a missed partition nothing is done with a cache. -/
theorem Misses.partUnits_eq (hdown : node.down = []) (h : req.Misses node part vidLen vids) :
    req.partUnits node part vids = [.report part (readCode vidLen vids)] := by
  obtain ⟨vid, rest, rfl⟩ := List.exists_cons_of_ne_nil h.vids_ne
  have hremoval : req.removal node ⟨vidLen, []⟩ part vid = .error (readCode vidLen (vid :: rest)) := by
    have hcode : readCode vidLen (vid :: rest) =
        if (Utf8.ofString vid).length ≤ vidLen then .partNotFound else .invalidVid := by
      simp [readCode]
    rw [hcode]
    split
    · next hfits =>
      have hscan (stem : Bytes) : node.scan req.space part stem = .error .partNotFound := by
        rw [Node.scan, Node.reading, hdown, if_neg List.not_mem_nil, Store.scan, Store.read, h.absent]
      have hread (stem : Bytes) :
          req.storedRows node ⟨vidLen, []⟩ part stem = .error .partNotFound := by
        have hcached : node.cache.isNone = false := by
          rw [← Option.not_isSome, h.cached]
          rfl
        simp only [storedRows, hcached, Bool.and_false, hscan]
        rfl
      obtain ⟨stem, hstem⟩ := Key.exists_vertexStem.2 hfits
      exact bind_eq_error.2 (.inr ⟨stem, hstem, bind_eq_error.2 (.inl (hread stem))⟩)
    · next hlong => exact bind_eq_error.2 (.inl (Key.vertexStem_of_lt (Nat.lt_of_not_le hlong)))
  have hprepare : req.prepare node ⟨vidLen, []⟩ part (vid :: rest) =
      .error (readCode vidLen (vid :: rest)) := by
    refine bind_eq_error.2 (.inl ?_)
    rw [List.mapM_cons]
    exact bind_eq_error.2 (.inl hremoval)
  rw [partUnits, h.layout_eq]
  exact congrArg (unitsOr part) hprepare

/-- Without indexes and without a cache a deletion is refused for an id that is too long. -/
theorem prepare_uncached_error_of_nil {code : ErrorCode}
    (h : req.prepare (node.uncached extra) ⟨vidLen, []⟩ part vids = .error code) :
    (¬ ∀ vid ∈ vids, (Utf8.ofString vid).length ≤ vidLen) ∧ code = .invalidVid := by
  rcases bind_eq_error.1 h with hremovals | ⟨removals, -, hmade⟩
  · obtain ⟨vid, hvid, hremoval⟩ := exists_of_mapM_eq_error hremovals
    rw [removal_uncached_of_nil] at hremoval
    by_cases hfits : (Utf8.ofString vid).length ≤ vidLen
    · obtain ⟨stem, hstem⟩ := Key.exists_vertexStem.2 hfits
      rw [hstem] at hremoval
      cases hremoval
    · rw [Key.vertexStem_of_lt (Nat.lt_of_not_le hfits)] at hremoval
      exact ⟨fun hall => hfits (hall vid hvid), (Except.error.inj hremoval).symm⟩
  · cases hmade

/-- Without indexes and without a cache each vertex is removed as one range, when its id fits. -/
theorem prepare_uncached_ok_of_nil {units : List WorkUnit}
    (h : req.prepare (node.uncached extra) ⟨vidLen, []⟩ part vids = .ok units) :
    (∀ vid ∈ vids, (Utf8.ofString vid).length ≤ vidLen) ∧
      ∃ stems : List Bytes, stems.length = vids.length ∧
        units = (stems.map fun stem => .removeRange stem (Key.upperBound stem)).map
          (.write part) := by
  obtain ⟨removals, hremovals, rfl⟩ := prepare_eq_ok.1 h
  have hremoval (vid : VertexId) (removal : Bytes × List Bytes)
      (hsame : req.removal (node.uncached extra) ⟨vidLen, []⟩ part vid = .ok removal) :
      (Utf8.ofString vid).length ≤ vidLen ∧ removal.2 = [] := by
    rw [removal_uncached_of_nil] at hsame
    obtain ⟨stem, hstem, rfl⟩ := map_eq_ok.1 hsame
    exact ⟨Key.exists_vertexStem.1 ⟨stem, hstem⟩, rfl⟩
  have hranges := removalWrites_of_nil fun removal hmem => by
    obtain ⟨vid, -, hsame⟩ := exists_of_forall₂_right hremovals hmem
    exact (hremoval vid removal hsame).2
  refine ⟨fun vid hvid => ?_, removals.map (·.1), ?_, ?_⟩
  · obtain ⟨removal, -, hsame⟩ := exists_of_forall₂_left hremovals hvid
    exact (hremoval vid removal hsame).1
  · rw [List.length_map, hremovals.length_eq]
  · rw [hranges, List.map_map (f := Prod.fst)]
    rfl

/-- For a missed partition without a cache all units are answered alike, and do nothing but count. -/
theorem Misses.partUnits_uncached (h : req.Misses node part vidLen vids) :
    node.completions req.space (req.partUnits (node.uncached extra) part vids) ≠ [] ∧
      (∀ completion ∈ node.completions req.space (req.partUnits (node.uncached extra) part vids),
        completion = (part, req.removeCode node part vidLen vids)) ∧
      ∀ entry ∈ WorkUnit.writes (req.partUnits (node.uncached extra) part vids),
        node.Idle req.space entry := by
  have hunits : req.partUnits (node.uncached extra) part vids =
      unitsOr part (req.prepare (node.uncached extra) ⟨vidLen, []⟩ part vids) := by
    have hlayout : (node.uncached extra).layout req.space false = .ok ⟨vidLen, []⟩ := h.layout_eq
    rw [partUnits, hlayout]
    rfl
  rw [hunits]
  cases hmade : req.prepare (node.uncached extra) ⟨vidLen, []⟩ part vids with
  | error code =>
    obtain ⟨hlong, rfl⟩ := prepare_uncached_error_of_nil extra hmade
    rw [removeCode, if_neg hlong]
    exact ⟨List.cons_ne_nil _ _, fun _ => List.mem_singleton.1, nofun⟩
  | ok units =>
    obtain ⟨hfits, stems, hlength, rfl⟩ := prepare_uncached_ok_of_nil extra hmade
    have hstems : stems ≠ [] := by
      rintro rfl
      exact h.vids_ne (List.length_eq_zero_iff.1 hlength.symm)
    simp only [unitsOr, Node.completions_map_write]
    refine ⟨by simpa using hstems, fun completion hcompletion => ?_, ?_⟩
    · obtain ⟨w, -, rfl⟩ := List.mem_map.1 hcompletion
      rw [removeCode, if_pos hfits]
    · rintro ⟨target, w⟩ hentry
      obtain ⟨removed, hremoved, heq⟩ := List.mem_map.1 (WorkUnit.mem_writes.1 hentry)
      obtain ⟨stem, -, rfl⟩ := List.mem_map.1 hremoved
      cases heq
      exact ⟨h.absent, _, _, rfl⟩

/-- Without a cache a partition has the same units, unless it is missed. -/
theorem partUnits_uncached (hdown : node.down = []) (hvids : req.parts[part]? = some vids) :
    req.partUnits (node.uncached extra) part vids = req.partUnits node part vids ∨
      ∃ vidLen, req.Misses node part vidLen vids := by
  by_cases hmiss : ∃ vidLen, req.Misses node part vidLen vids
  · exact .inr hmiss
  · have hsame : (node.uncached extra).layout req.space false = node.layout req.space false := rfl
    rw [partUnits, partUnits, hsame]
    cases hlayout : node.layout req.space false with
    | error code => exact .inl rfl
    | ok layout =>
      have hprepare := prepare_uncached extra hdown hlayout hvids fun h => hmiss ⟨layout.vidLen, h⟩
      exact .inl (congrArg (unitsOr part) hprepare)

end DeleteVertices

/-- What a response lists for a partition. -/
def Response.resultFor? (r : Response) (part : PartId) : Option PartResult :=
  r.failed.find? (·.part = part)

/-- How the answer to a deletion on a node agrees with the answer that it has without a cache: all that
may differ is what is listed of partitions that are missed. -/
structure DeleteVertices.Agreement (req : DeleteVertices) (node : Node) (cached plain : Response) :
    Prop where
  others : { plain with failed := [] } = { cached with failed := [] }
  same : ∀ part, (∀ vidLen vids, ¬ req.Misses node part vidLen vids) →
    plain.resultFor? part = cached.resultFor? part
  missed : ∀ part vidLen vids, req.Misses node part vidLen vids →
    cached.resultFor? part =
        Tracker.result? (node.leader req.space) part (readCode vidLen vids) ∧
      plain.resultFor? part =
        Tracker.result? (node.leader req.space) part (req.removeCode node part vidLen vids)

namespace Node

variable {node : Node} (extra : Nat) (req : DeleteVertices)

/-- The units of a deletion. -/
def deletionUnits (node : Node) (req : DeleteVertices) : List WorkUnit :=
  req.parts.toList.flatMap fun (part, vids) => req.partUnits node part vids

/-- What a deletion that is carried out lists for a partition depends on the units of it alone. -/
theorem resultFor?_runUnits (start : Node) (part : PartId) :
    (start.runUnits req.space (node.deletionUnits req)).2.resultFor? part =
      (collectFailures (start.leader req.space) (start.completions req.space
        ((req.parts[part]?.map (req.partUnits node part)).getD []))).head? := by
  have hunits : (node.deletionUnits req).filter (·.part = part) =
      (req.parts[part]?.map (req.partUnits node part)).getD [] :=
    filter_unitsOf (req.preparesWrites node) part
  rw [Response.resultFor?, ← List.head?_filter, failed_filter_runUnits, hunits]

/-- A deletion carries out its units, the cache aside. -/
theorem deleteVertices_spec (node : Node) (req : DeleteVertices) :
    (∀ extra, (node.deleteVertices req).1.uncached extra =
        (node.runUnits req.space (node.deletionUnits req)).1.uncached extra) ∧
      (node.deleteVertices req).2 = (node.runUnits req.space (node.deletionUnits req)).2 := by
  have hunits : unitsOf (node.layout req.space false) req.parts (req.prepare node) =
      node.deletionUnits req := rfl
  rw [deleteVertices, hunits]
  split
  · constructor
    · intro extra
      rw [runUnits_eq, runUnits_eq, ← performAll_uncached, ← performAll_uncached, uncached_evict]
    · rw [runUnits_eq, runUnits_eq]
      rfl
  · exact ⟨fun extra => rfl, rfl⟩

/-- Without a cache a deletion carries out its units. -/
theorem uncached_deleteVertices (node : Node) : (node.uncached extra).deleteVertices req =
    (node.uncached extra).runUnits req.space ((node.uncached extra).deletionUnits req) := rfl

/-- Where no partition is missed, deleting vertices does not depend on the cache. -/
theorem deleteVertices_uncached (hdown : node.down = [])
    (hnone : ∀ part vidLen vids, ¬ req.Misses node part vidLen vids) :
    (node.uncached extra).deleteVertices req =
      ((node.deleteVertices req).1.uncached extra, (node.deleteVertices req).2) := by
  have hunits : (node.uncached extra).deletionUnits req = node.deletionUnits req := by
    refine List.flatMap_congr fun entry hentry => ?_
    have hvids := Std.ExtTreeMap.mem_toList_iff_getElem?_eq_some.1 hentry
    rcases req.partUnits_uncached extra hdown hvids with hsame | ⟨vidLen, hmiss⟩
    · exact hsame
    · exact absurd hmiss (hnone _ _ _)
  obtain ⟨hfst, hsnd⟩ := node.deleteVertices_spec req
  rw [uncached_deleteVertices, hunits, runUnits_uncached, hfst, hsnd]

/-- Deleting vertices leaves the same behind without a cache, but for removals that change nothing. -/
theorem deleteVertices_uncached_fst (hdown : node.down = []) :
    ∃ more, ((node.uncached extra).deleteVertices req).1 =
      (node.deleteVertices req).1.uncached (extra + more) := by
  have hwrites (other : Node) : WorkUnit.writes (other.deletionUnits req) =
      req.parts.toList.flatMap fun entry => WorkUnit.writes (req.partUnits other entry.1 entry.2) :=
    List.filterMap_flatMap ..
  have hpieces : ∀ entry ∈ req.parts.toList,
      WorkUnit.writes (req.partUnits (node.uncached extra) entry.1 entry.2) =
          WorkUnit.writes (req.partUnits node entry.1 entry.2) ∨
        WorkUnit.writes (req.partUnits node entry.1 entry.2) = [] ∧
          ∀ write ∈ WorkUnit.writes (req.partUnits (node.uncached extra) entry.1 entry.2),
            node.Idle req.space write := by
    intro entry hentry
    have hvids := Std.ExtTreeMap.mem_toList_iff_getElem?_eq_some.1 hentry
    rcases req.partUnits_uncached extra hdown hvids with hsame | ⟨vidLen, hmiss⟩
    · exact .inl (congrArg WorkUnit.writes hsame)
    · rw [hmiss.partUnits_eq hdown]
      exact .inr ⟨rfl, (hmiss.partUnits_uncached extra).2.2⟩
  obtain ⟨more, hmore⟩ := performAll_flatMap_uncached extra hdown hpieces
  refine ⟨more, ?_⟩
  rw [(node.deleteVertices_spec req).1, uncached_deleteVertices, runUnits_eq, runUnits_eq, hwrites,
    hwrites]
  exact hmore

/-- Deleting vertices is answered alike without a cache. -/
theorem deleteVertices_agreement (hdown : node.down = []) :
    req.Agreement node (node.deleteVertices req).2 ((node.uncached extra).deleteVertices req).2 := by
  have hsame (units : List WorkUnit) :
      (node.uncached extra).completions req.space units = node.completions req.space units := rfl
  have hleader : (node.uncached extra).leader = node.leader := rfl
  rw [uncached_deleteVertices, (node.deleteVertices_spec req).2]
  refine ⟨?_, fun part hnone => ?_, fun part vidLen vids hmiss => ?_⟩
  · rw [runUnits_eq, runUnits_eq]
  · rw [resultFor?_runUnits, resultFor?_runUnits, hsame, hleader]
    cases hvids : req.parts[part]? with
    | none => rfl
    | some vids =>
      rcases req.partUnits_uncached extra hdown hvids with hunits | ⟨vidLen, hmiss⟩
      · rw [Option.map_some, Option.map_some, hunits]
      · exact absurd hmiss (hnone vidLen vids)
  · obtain ⟨hne, hcompletions, -⟩ := hmiss.partUnits_uncached extra
    rw [resultFor?_runUnits, resultFor?_runUnits, hsame, hleader, hmiss.vids_eq, Option.map_some,
      Option.map_some, hmiss.partUnits_eq hdown]
    constructor
    · have hreported : node.completions req.space [.report part (DeleteVertices.readCode vidLen vids)] =
          [(part, DeleteVertices.readCode vidLen vids)] := rfl
      rw [Option.getD_some, hreported, Tracker.collectFailures_of_forall_eq (List.cons_ne_nil _ _)
        fun _ => List.mem_singleton.1, Option.head?_toList]
    · rw [Option.getD_some, Tracker.collectFailures_of_forall_eq hne hcompletions, Option.head?_toList]

end Node

end GraphStore
