import GraphStore.Mutation.Batch
import GraphStore.Proofs.Fanout.Tracker
import GraphStore.Proofs.Storage.Node

/-!
# What units of work leave behind

A request's writes are carried out in order, and its response lists the partitions for which a unit
reported a failure or a write was refused. When the units of each partition are writes to it alone,
a partition takes all of its writes or none, and it is listed exactly when it takes none of them.
-/

namespace GraphStore

namespace WorkUnit

/-- The code that a unit reports at once. -/
def report? : WorkUnit → Option (PartId × ErrorCode)
  | report part code => some (part, code)
  | write _ _ => none

/-- The write that a unit queues. -/
def write? : WorkUnit → Option (PartId × Write)
  | report _ _ => none
  | write part w => some (part, w)

/-- The partition of a unit. -/
def part : WorkUnit → PartId
  | report part _ => part
  | write part _ => part

/-- The codes that units report at once, in order. -/
def reports (units : List WorkUnit) : List (PartId × ErrorCode) := units.filterMap report?

/-- The writes of units, in order. -/
def writes (units : List WorkUnit) : List (PartId × Write) := units.filterMap write?

variable (part : PartId) (code : ErrorCode) (w : Write) (units : List WorkUnit)

@[simp] theorem reports_nil : reports [] = [] := rfl

@[simp] theorem writes_nil : writes [] = [] := rfl

@[simp] theorem reports_cons_report :
    reports (report part code :: units) = (part, code) :: reports units := rfl

@[simp] theorem reports_cons_write : reports (write part w :: units) = reports units := rfl

@[simp] theorem writes_cons_report : writes (report part code :: units) = writes units := rfl

@[simp] theorem writes_cons_write :
    writes (write part w :: units) = (part, w) :: writes units := rfl

variable {part code w units}

/-- A code is reported by a unit that reports it. -/
theorem mem_reports : (part, code) ∈ reports units ↔ report part code ∈ units := by
  induction units with
  | nil => simp
  | cons unit units ih => cases unit <;> simp [ih]

/-- A write is queued by a unit that queues it. -/
theorem mem_writes : (part, w) ∈ writes units ↔ write part w ∈ units := by
  induction units with
  | nil => simp
  | cons unit units ih => cases unit <;> simp [ih]

/-- Units that report codes report them. -/
theorem reports_map_report (codes : List (PartId × ErrorCode)) :
    reports (codes.map fun (part, code) => report part code) = codes := by
  induction codes with
  | nil => rfl
  | cons entry codes ih =>
    rw [List.map_cons, reports_cons_report]
    exact congrArg (entry :: ·) ih

/-- Units that report codes write nothing. -/
theorem writes_map_report (codes : List (PartId × ErrorCode)) :
    writes (codes.map fun (part, code) => report part code) = [] := by
  induction codes with
  | nil => rfl
  | cons entry codes ih => exact ih

/-- Writes to one partition report nothing. -/
theorem reports_map_write (part : PartId) (ws : List Write) : reports (ws.map (.write part)) = [] := by
  induction ws with
  | nil => rfl
  | cons w ws ih => exact ih

/-- Writes to one partition are queued for it. -/
theorem writes_map_write_one (part : PartId) (ws : List Write) :
    writes (ws.map (.write part)) = ws.map (part, ·) := by
  induction ws with
  | nil => rfl
  | cons w ws ih => exact congrArg (List.cons (part, w)) ih

/-- The codes reported for some partitions are those of the units for them. -/
theorem filter_reports (keep : PartId → Bool) (units : List WorkUnit) :
    (reports units).filter (keep ·.1) = reports (units.filter (keep ·.part)) := by
  induction units with
  | nil => rfl
  | cons unit units ih =>
    cases unit with
    | report part code =>
      rw [reports_cons_report, List.filter_cons, List.filter_cons, ih]
      cases hkeep : keep part <;> simp [WorkUnit.part, hkeep]
    | write part w =>
      rw [reports_cons_write, ih, List.filter_cons]
      split <;> rfl

/-- The writes to some partitions are those of the units for them. -/
theorem filter_writes (keep : PartId → Bool) (units : List WorkUnit) :
    (writes units).filter (keep ·.1) = writes (units.filter (keep ·.part)) := by
  induction units with
  | nil => rfl
  | cons unit units ih =>
    cases unit with
    | report part code =>
      rw [writes_cons_report, ih, List.filter_cons]
      split <;> rfl
    | write part w =>
      rw [writes_cons_write, List.filter_cons, List.filter_cons, ih]
      cases hkeep : keep part <;> simp [WorkUnit.part, hkeep]

end WorkUnit

namespace Session

/-- Units that are taken on are reported at once or queued. -/
theorem foldl_dispatch (s : Session) (units : List WorkUnit) :
    units.foldl dispatch s = {
      s with
      tracker := s.tracker.completeAll (s.node.leader s.space) (WorkUnit.reports units)
      queued := s.queued ++ WorkUnit.writes units } := by
  induction units generalizing s with
  | nil => simp [Tracker.completeAll]
  | cons unit units ih =>
    rw [List.foldl_cons, ih]
    cases unit with
    | report part code => rfl
    | write part write => simp [dispatch, enqueue]

/-- Queued writes are carried out one after another, each answered according to its partition. -/
theorem performAll_eq (s : Session) (schedule : List (PartId × Write)) :
    s.performAll schedule = {
      s with
      node := s.node.performAll s.space schedule
      tracker := s.tracker.completeAll (s.node.leader s.space)
        (schedule.map fun (part, _) => (part, (s.node.writeCode s.space part).toErrorCode)) } := by
  induction schedule generalizing s with
  | nil => rfl
  | cons entry schedule ih =>
    obtain ⟨part, write⟩ := entry
    have hsetting := s.node.perform_sameSetting s.space part write
    have hcode := s.node.perform_code s.space part write
    have hstep : s.performAll ((part, write) :: schedule) =
        (s.perform part write).performAll schedule := rfl
    rw [hstep, ih]
    simp only [perform, writeNow, report, hcode, hsetting.leader, hsetting.writeCode]
    rfl

end Session

namespace Node

/-- The completions of units: what is reported at once, then the answers to the writes. -/
def completions (node : Node) (space : SpaceId) (units : List WorkUnit) :
    List (PartId × ErrorCode) :=
  WorkUnit.reports units ++
    (WorkUnit.writes units).map fun (part, _) => (part, (node.writeCode space part).toErrorCode)

/-- The completions for some partitions are those of the units for them. -/
theorem filter_completions (keep : PartId → Bool) (node : Node) (space : SpaceId)
    (units : List WorkUnit) : (node.completions space units).filter (keep ·.1) =
      node.completions space (units.filter (keep ·.part)) := by
  rw [completions, completions, List.filter_append, List.filter_map]
  exact congrArg₂ (· ++ ·) (WorkUnit.filter_reports keep units)
    (congrArg (List.map _) (WorkUnit.filter_writes keep units))

/-- Every unit has one completion. -/
theorem length_completions (node : Node) (space : SpaceId) (units : List WorkUnit) :
    (node.completions space units).length = units.length := by
  induction units with
  | nil => rfl
  | cons unit units ih =>
    simp only [completions, List.length_append, List.length_map] at ih ⊢
    cases unit <;> simp <;> omega

/-- Writes to one partition are all answered alike. -/
theorem completions_map_write (node : Node) (space : SpaceId) (part : PartId)
    (writes : List Write) :
    node.completions space (writes.map (.write part)) =
      writes.map fun _ => (part, (node.writeCode space part).toErrorCode) := by
  rw [completions, WorkUnit.reports_map_write, WorkUnit.writes_map_write_one, List.map_map]
  rfl

/-- Units of work are carried out in order and answered with the failures among them. -/
theorem runUnits_eq (node : Node) (space : SpaceId) (units : List WorkUnit) :
    node.runUnits space units =
      (node.performAll space (WorkUnit.writes units),
        { failed := collectFailures (node.leader space) (node.completions space units) }) := by
  have hcollect : collectFailures (node.leader space) (node.completions space units) =
      ((Tracker.start units.length).completeAll (node.leader space)
        (node.completions space units)).outcome := by
    rw [collectFailures, length_completions]
  rw [hcollect, runUnits, Session.foldl_dispatch, Session.finish, Session.drain,
    Session.performAll_eq]
  simp only [Session.start, List.nil_append, completions, Tracker.completeAll, List.foldl_append]

/-- A request that reports one code is answered with it. -/
theorem runUnits_report (node : Node) (space : SpaceId) (part : PartId) (code : ErrorCode) :
    node.runUnits space [.report part code] =
      (node, { failed := (Tracker.result? (node.leader space) part code).toList }) := by
  rw [runUnits_eq, ← Tracker.collectFailures_of_forall_eq (List.cons_ne_nil _ _)
    fun _ => List.mem_singleton.1]
  rfl

/-- A request of one write performs it and is answered according to its partition. -/
theorem runUnits_write (node : Node) (space : SpaceId) (part : PartId) (w : Write) :
    node.runUnits space [.write part w] = ((node.perform space part w).1, {
      failed := (Tracker.result? (node.leader space) part
        (node.writeCode space part).toErrorCode).toList }) := by
  rw [runUnits_eq, ← Tracker.collectFailures_of_forall_eq (List.cons_ne_nil _ _)
    fun _ => List.mem_singleton.1]
  rfl

/-- What is listed of a partition depends on the units for it alone. -/
theorem failed_filter_runUnits (node : Node) (space : SpaceId) (units : List WorkUnit)
    (part : PartId) : (node.runUnits space units).2.failed.filter (·.part = part) =
      collectFailures (node.leader space)
        (node.completions space (units.filter (·.part = part))) := by
  rw [runUnits_eq]
  dsimp only
  rw [Tracker.filter_collectFailures (decide <| · = part), filter_completions (decide <| · = part)]

/-- A request that only reports codes changes nothing. -/
theorem reportParts_eq (node : Node) (space : SpaceId) (reports : List (PartId × ErrorCode)) :
    node.reportParts space reports =
      (node, { failed := collectFailures (node.leader space) reports }) := by
  rw [reportParts, runUnits_eq, completions, WorkUnit.writes_map_report, WorkUnit.reports_map_report,
    List.map_nil, List.append_nil]
  rfl

/-- A partition is listed when a unit reports a failure of it or a write to it is refused. -/
theorem mem_failed_runUnits (node : Node) (space : SpaceId) (units : List WorkUnit)
    (part : PartId) :
    part ∈ (node.runUnits space units).2.failed.map (·.part) ↔
      (∃ code, WorkUnit.report part code ∈ units ∧ code ≠ .succeeded) ∨
        (∃ write, WorkUnit.write part write ∈ units) ∧ node.writeCode space part ≠ .succeeded := by
  rw [runUnits_eq, Tracker.mem_collectFailures]
  simp only [completions, List.mem_append, List.mem_map, WorkUnit.mem_reports]
  constructor
  · rintro ⟨code, hreport | ⟨⟨target, write⟩, hwrite, heq⟩, hcode⟩
    · exact .inl ⟨code, hreport, hcode⟩
    · cases heq
      refine .inr ⟨⟨write, WorkUnit.mem_writes.1 hwrite⟩, fun h => hcode ?_⟩
      rw [h]
      rfl
  · rintro (⟨code, hreport, hcode⟩ | ⟨⟨write, hwrite⟩, hcode⟩)
    · exact ⟨code, .inl hreport, hcode⟩
    · refine ⟨_, .inr ⟨(part, write), WorkUnit.mem_writes.2 hwrite, rfl⟩, fun h => hcode ?_⟩
      exact (EngineCode.toErrorCode_eq_succeeded _).1 h

end Node

section UnitsOf

variable {α : Type} {layout : Except ErrorCode SpaceLayout} {parts : PartMap α}
  {prepare : SpaceLayout → PartId → α → Except ErrorCode (List WorkUnit)} {part : PartId} {items : α}

/-- Whether what is prepared for a partition are writes to it. -/
def PreparesWrites (prepare : SpaceLayout → PartId → α → Except ErrorCode (List WorkUnit)) : Prop :=
  ∀ layout part items units, prepare layout part items = .ok units →
    ∃ writes : List Write, units = writes.map (.write part)

/-- The work of a request is that of its partitions. -/
theorem mem_unitsOf {unit : WorkUnit} : unit ∈ unitsOf layout parts prepare ↔
    ∃ part items, parts[part]? = some items ∧
      unit ∈ unitsOr part (layout.bind fun layout => prepare layout part items) := by
  rw [unitsOf, List.mem_flatMap]
  constructor
  · rintro ⟨⟨part, items⟩, hmem, hunit⟩
    exact ⟨part, items, Std.ExtTreeMap.mem_toList_iff_getElem?_eq_some.1 hmem, hunit⟩
  · rintro ⟨part, items, hitems, hunit⟩
    exact ⟨(part, items), Std.ExtTreeMap.mem_toList_iff_getElem?_eq_some.2 hitems, hunit⟩

/-- What is prepared for a partition with a layout are writes to it. -/
theorem PreparesWrites.bind (hprepare : PreparesWrites prepare) {units : List WorkUnit}
    (hplan : layout.bind (fun layout => prepare layout part items) = .ok units) :
    ∃ writes : List Write, units = writes.map (.write part) := by
  cases layout with
  | error code => cases hplan
  | ok layout => exact hprepare layout part items units hplan

/-- A code is reported for a partition that cannot be prepared. -/
theorem report_mem_unitsOf (hprepare : PreparesWrites prepare) {code : ErrorCode} :
    WorkUnit.report part code ∈ unitsOf layout parts prepare ↔ ∃ items, parts[part]? = some items ∧
      layout.bind (fun layout => prepare layout part items) = .error code := by
  rw [mem_unitsOf]
  constructor
  · rintro ⟨target, items, hitems, hunit⟩
    cases hplan : layout.bind fun layout => prepare layout target items with
    | error refused =>
      rw [hplan] at hunit
      cases List.mem_singleton.1 hunit
      exact ⟨items, hitems, hplan⟩
    | ok units =>
      obtain ⟨writes, rfl⟩ := hprepare.bind hplan
      rw [hplan] at hunit
      obtain ⟨w, -, heq⟩ := List.mem_map.1 hunit
      cases heq
  · rintro ⟨items, hitems, hplan⟩
    refine ⟨part, items, hitems, ?_⟩
    rw [hplan]
    exact List.mem_singleton_self _

/-- A partition is written when something is prepared for it. -/
theorem write_mem_unitsOf (hprepare : PreparesWrites prepare) {w : Write} :
    WorkUnit.write part w ∈ unitsOf layout parts prepare ↔
      ∃ (items : α) (writes : List Write), parts[part]? = some items ∧
        layout.bind (fun layout => prepare layout part items) = .ok (writes.map (.write part)) ∧
        w ∈ writes := by
  rw [mem_unitsOf]
  constructor
  · rintro ⟨target, items, hitems, hunit⟩
    cases hplan : layout.bind fun layout => prepare layout target items with
    | error refused =>
      rw [hplan] at hunit
      cases List.mem_singleton.1 hunit
    | ok units =>
      obtain ⟨writes, rfl⟩ := hprepare.bind hplan
      rw [hplan] at hunit
      obtain ⟨w', hw, heq⟩ := List.mem_map.1 hunit
      cases heq
      exact ⟨items, writes, hitems, hplan, hw⟩
  · rintro ⟨items, writes, hitems, hplan, hw⟩
    refine ⟨part, items, hitems, ?_⟩
    rw [hplan]
    exact List.mem_map_of_mem hw

/-- No partition is listed twice. -/
theorem PartMap.distinct_toList (parts : PartMap α) :
    parts.toList.Pairwise fun a b => a.1 ≠ b.1 :=
  parts.distinct_keys_toList.imp fun h heq => h (by rw [heq]; exact Std.ReflCmp.compare_self)

/-- The partitions of a map are those it has something for. -/
theorem PartMap.mem_iff_getElem? {parts : PartMap α} :
    part ∈ parts ↔ ∃ items, parts[part]? = some items := by
  rw [Std.ExtTreeMap.mem_iff_isSome_getElem?, Option.isSome_iff_exists]

/-- Of a list without repeated partitions only the entry of one partition adds to it. -/
theorem flatMap_eq_of_distinct {β : Type} {entries : List (PartId × α)}
    (hdistinct : entries.Pairwise fun a b => a.1 ≠ b.1) (hmem : (part, items) ∈ entries)
    {f : PartId × α → List β} (hf : ∀ entry ∈ entries, entry.1 ≠ part → f entry = []) :
    entries.flatMap f = f (part, items) := by
  induction entries with
  | nil => cases hmem
  | cons entry entries ih =>
    obtain ⟨hfirst, hdistinct⟩ := List.pairwise_cons.1 hdistinct
    have hrest (other : PartId × α) (hother : other ∈ entries) := hf other (List.mem_cons_of_mem _ hother)
    rw [List.flatMap_cons]
    rcases List.mem_cons.1 hmem with rfl | hmem
    · have hnil : entries.flatMap f = [] :=
        List.flatMap_eq_nil_iff.2 fun other hother => hrest other hother (hfirst other hother).symm
      rw [hnil, List.append_nil]
    · rw [hf entry List.mem_cons_self (hfirst _ hmem), List.nil_append, ih hdistinct hmem hrest]

/-- The work of a request for one partition is what is prepared for it. -/
theorem unitsOf_insert_empty (layout : Except ErrorCode SpaceLayout) (part : PartId) (items : α)
    (prepare : SpaceLayout → PartId → α → Except ErrorCode (List WorkUnit)) :
    unitsOf layout (.insert ∅ part items) prepare =
      unitsOr part (layout.bind fun layout => prepare layout part items) := by
  have hget (other : PartId) (others : α) :
      (Std.ExtTreeMap.insert ∅ part items : PartMap α)[other]? = some others ↔
        part = other ∧ items = others := by
    rw [Std.ExtTreeMap.getElem?_insert]
    simp
  rw [unitsOf, flatMap_eq_of_distinct (PartMap.distinct_toList _)
    (Std.ExtTreeMap.mem_toList_iff_getElem?_eq_some.2 ((hget part items).2 ⟨rfl, rfl⟩))]
  rintro ⟨other, others⟩ hmem hne
  have hother := (hget other others).1 (Std.ExtTreeMap.mem_toList_iff_getElem?_eq_some.1 hmem)
  exact absurd hother.1.symm hne

/-- Writes to a partition are gathered from every piece of a list. -/
theorem writesTo_flatMap {β : Type} (entries : List β) (f : β → List WorkUnit) (part : PartId) :
    Node.writesTo part (WorkUnit.writes (entries.flatMap f)) =
      entries.flatMap fun entry => Node.writesTo part (WorkUnit.writes (f entry)) := by
  rw [Node.writesTo, WorkUnit.writes, List.filterMap_flatMap, List.filterMap_flatMap]
  rfl

/-- Without writes to a partition there are none. -/
theorem writesTo_eq_nil {units : List WorkUnit}
    (h : ∀ target w, WorkUnit.write target w ∈ units → target ≠ part) :
    Node.writesTo part (WorkUnit.writes units) = [] := by
  apply List.filterMap_eq_nil_iff.2
  intro entry hentry
  exact if_neg (h entry.1 entry.2 (WorkUnit.mem_writes.1 hentry))

/-- Writes prepared for a partition are all of them writes to it. -/
theorem writesTo_map_write (part : PartId) (writes : List Write) :
    Node.writesTo part (WorkUnit.writes (writes.map (.write part))) = writes := by
  induction writes with
  | nil => rfl
  | cons w writes ih => simpa [Node.writesTo] using ih

/-- A partition is written as prepared for it. -/
theorem writesTo_unitsOf (hprepare : PreparesWrites prepare) (hitems : parts[part]? = some items)
    {writes : List Write}
    (hplan : layout.bind (fun layout => prepare layout part items) = .ok (writes.map (.write part))) :
    Node.writesTo part (WorkUnit.writes (unitsOf layout parts prepare)) = writes := by
  rw [unitsOf, writesTo_flatMap, flatMap_eq_of_distinct parts.distinct_toList
    (Std.ExtTreeMap.mem_toList_iff_getElem?_eq_some.2 hitems)]
  · dsimp only
    rw [hplan]
    exact writesTo_map_write part writes
  · rintro ⟨other, others⟩ - hne
    apply writesTo_eq_nil
    rintro target w hmem rfl
    dsimp only at hmem
    cases hother : layout.bind fun layout => prepare layout other others with
    | error code =>
      rw [hother] at hmem
      cases List.mem_singleton.1 hmem
    | ok units =>
      obtain ⟨writes', rfl⟩ := hprepare.bind hother
      rw [hother] at hmem
      obtain ⟨w', -, heq⟩ := List.mem_map.1 hmem
      cases heq
      exact hne rfl

/-- The units for a partition are those prepared for it. -/
theorem filter_unitsOf (hprepare : PreparesWrites prepare) (part : PartId) :
    (unitsOf layout parts prepare).filter (·.part = part) =
      (parts[part]?.map fun items =>
        unitsOr part (layout.bind fun layout => prepare layout part items)).getD [] := by
  -- What is prepared for a partition is all of it kept, or all of it left out.
  have hpiece (target : PartId) (items : α) :
      (unitsOr target (layout.bind fun layout => prepare layout target items)).filter
          (·.part = part) =
        if target = part then unitsOr target (layout.bind fun layout => prepare layout target items)
        else [] := by
    have hall : ∀ unit ∈ unitsOr target (layout.bind fun layout => prepare layout target items),
        unit.part = target := by
      intro unit hunit
      cases hplan : layout.bind fun layout => prepare layout target items with
      | error code =>
        rw [hplan] at hunit
        cases List.mem_singleton.1 hunit
        rfl
      | ok units =>
        obtain ⟨writes, rfl⟩ := hprepare.bind hplan
        rw [hplan] at hunit
        obtain ⟨w, -, rfl⟩ := List.mem_map.1 hunit
        rfl
    split
    · next heq =>
      exact List.filter_eq_self.2 fun unit hunit => decide_eq_true ((hall unit hunit).trans heq)
    · next hne =>
      exact List.filter_eq_nil_iff.2 fun unit hunit heq =>
        hne ((hall unit hunit).symm.trans (of_decide_eq_true heq))
  rw [unitsOf, List.filter_flatMap]
  cases hitems : parts[part]? with
  | none =>
    refine List.flatMap_eq_nil_iff.2 fun entry hentry => (hpiece entry.1 entry.2).trans (if_neg ?_)
    rintro rfl
    rw [Std.ExtTreeMap.mem_toList_iff_getElem?_eq_some.1 hentry] at hitems
    cases hitems
  | some items =>
    rw [flatMap_eq_of_distinct parts.distinct_toList (Std.ExtTreeMap.mem_toList_iff_getElem?_eq_some.2 hitems)]
    · exact (hpiece part items).trans (if_pos rfl)
    · exact fun entry _ hne => (hpiece entry.1 entry.2).trans (if_neg hne)

variable (node : Node) (space : SpaceId)

/-- The content of a partition after units of work. -/
theorem runUnits_parts (units : List WorkUnit) (addr : Address) :
    (node.runUnits space units).1.store.parts[addr]? =
      if addr.space = space ∧ node.Writable addr then
        node.store.parts[addr]?.map
          (Write.applyAll (Node.writesTo addr.part (WorkUnit.writes units)))
      else node.store.parts[addr]? := by
  rw [Node.runUnits_eq, Node.performAll_parts]

/-- Units of work leave the setting as it is. -/
theorem runUnits_sameSetting (units : List WorkUnit) :
    SameSetting node (node.runUnits space units).1 := by
  rw [Node.runUnits_eq]
  exact Node.performAll_sameSetting ..

/-- A partition without writes keeps its content. -/
theorem runUnits_parts_of_nil {units : List WorkUnit} {addr : Address}
    (h : Node.writesTo addr.part (WorkUnit.writes units) = []) :
    (node.runUnits space units).1.store.parts[addr]? = node.store.parts[addr]? := by
  have hid : Write.applyAll [] = id := rfl
  rw [runUnits_parts, h, hid, Option.map_id]
  exact ite_self _

/-- Other spaces keep their contents. -/
theorem runUnits_parts_of_ne (units : List WorkUnit) {addr : Address} (h : addr.space ≠ space) :
    (node.runUnits space units).1.store.parts[addr]? = node.store.parts[addr]? := by
  rw [runUnits_parts, if_neg fun hand => h hand.1]

/-- A partition that is not requested keeps its content and is not listed. -/
theorem runUnits_absent (hprepare : PreparesWrites prepare) (habsent : parts[part]? = none) :
    (node.runUnits space (unitsOf layout parts prepare)).1.store.parts[(⟨space, part⟩ : Address)]? =
        node.store.parts[(⟨space, part⟩ : Address)]? ∧
      part ∉ (node.runUnits space (unitsOf layout parts prepare)).2.failed.map (·.part) := by
  constructor
  · apply runUnits_parts_of_nil
    apply writesTo_eq_nil
    rintro target w hmem rfl
    obtain ⟨items, writes, hitems, -⟩ := (write_mem_unitsOf hprepare).1 hmem
    rw [habsent] at hitems
    cases hitems
  · rw [Node.mem_failed_runUnits]
    rintro (⟨code, hmem, -⟩ | ⟨⟨w, hmem⟩, -⟩)
    · obtain ⟨items, hitems, -⟩ := (report_mem_unitsOf hprepare).1 hmem
      rw [habsent] at hitems
      cases hitems
    · obtain ⟨items, writes, hitems, -⟩ := (write_mem_unitsOf hprepare).1 hmem
      rw [habsent] at hitems
      cases hitems

/-- A partition whose preparation fails keeps its content and is listed, unless the failure is
called a success. -/
theorem runUnits_refused (hprepare : PreparesWrites prepare) (hitems : parts[part]? = some items)
    {code : ErrorCode}
    (hplan : layout.bind (fun layout => prepare layout part items) = .error code) :
    (node.runUnits space (unitsOf layout parts prepare)).1.store.parts[(⟨space, part⟩ : Address)]? =
        node.store.parts[(⟨space, part⟩ : Address)]? ∧
      (part ∈ (node.runUnits space (unitsOf layout parts prepare)).2.failed.map (·.part) ↔
        code ≠ .succeeded) := by
  have hwrites : ∀ w, WorkUnit.write part w ∉ unitsOf layout parts prepare := by
    intro w hmem
    obtain ⟨others, writes, hothers, hother, -⟩ := (write_mem_unitsOf hprepare).1 hmem
    rw [hitems] at hothers
    cases hothers
    rw [hplan] at hother
    cases hother
  constructor
  · apply runUnits_parts_of_nil
    apply writesTo_eq_nil
    rintro target w hmem rfl
    exact hwrites w hmem
  · rw [Node.mem_failed_runUnits]
    constructor
    · rintro (⟨reported, hmem, hcode⟩ | ⟨⟨w, hmem⟩, -⟩)
      · obtain ⟨others, hothers, hother⟩ := (report_mem_unitsOf hprepare).1 hmem
        rw [hitems] at hothers
        cases hothers
        rw [hplan] at hother
        cases hother
        exact hcode
      · exact absurd hmem (hwrites w)
    · intro hcode
      exact .inl ⟨code, (report_mem_unitsOf hprepare).2 ⟨items, hitems, hplan⟩, hcode⟩

/-- A partition takes everything that is prepared for it, if nothing keeps writes from it, and is
listed when a write is refused. -/
theorem runUnits_prepared (hprepare : PreparesWrites prepare) (hitems : parts[part]? = some items)
    {writes : List Write}
    (hplan : layout.bind (fun layout => prepare layout part items) = .ok (writes.map (.write part))) :
    (node.runUnits space (unitsOf layout parts prepare)).1.store.parts[(⟨space, part⟩ : Address)]? =
        (if node.Writable ⟨space, part⟩ then
          node.store.parts[(⟨space, part⟩ : Address)]?.map (Write.applyAll writes)
        else node.store.parts[(⟨space, part⟩ : Address)]?) ∧
      (part ∈ (node.runUnits space (unitsOf layout parts prepare)).2.failed.map (·.part) ↔
        writes ≠ [] ∧ node.writeCode space part ≠ .succeeded) := by
  constructor
  · rw [runUnits_parts, writesTo_unitsOf hprepare hitems hplan]
    simp only [true_and]
  · rw [Node.mem_failed_runUnits]
    constructor
    · rintro (⟨reported, hmem, -⟩ | ⟨⟨w, hmem⟩, hcode⟩)
      · obtain ⟨others, hothers, hother⟩ := (report_mem_unitsOf hprepare).1 hmem
        rw [hitems] at hothers
        cases hothers
        rw [hplan] at hother
        cases hother
      · obtain ⟨others, others', hothers, hother, hw⟩ := (write_mem_unitsOf hprepare).1 hmem
        rw [hitems] at hothers
        cases hothers
        rw [hplan] at hother
        refine ⟨fun hnil => ?_, hcode⟩
        rw [hnil] at hother
        cases others' with
        | nil => cases hw
        | cons w others' => cases hother
    · rintro ⟨hne, hcode⟩
      obtain ⟨w, hw⟩ := List.exists_mem_of_ne_nil writes hne
      exact .inr ⟨⟨w, (write_mem_unitsOf hprepare).2 ⟨items, writes, hitems, hplan, hw⟩⟩, hcode⟩

end UnitsOf

end GraphStore
