import GraphStore.Proofs.Mutation.PreparedUpdate
import GraphStore.Proofs.Run.Event

/-!
# An update is done as a whole

An update that lists a failure leaves every partition as it is, and it lists its condition as the
failure exactly when that does not hold of a row that is there. An update that lists none has left
the row that its updates make, with the index entries of that row in place of those of the old one,
and nothing else is touched.
-/

namespace GraphStore

/-- No outcome of the engine is told as a condition that does not hold. -/
theorem EngineCode.toErrorCode_ne_filterOut (code : EngineCode) :
    code.toErrorCode ≠ .filterOut := by
  cases code <;> decide

/-- A condition that does not hold is listed for itself alone. -/
theorem Tracker.exists_filterOut_iff {leader : PartId → Except EngineCode Host} {part : PartId}
    {code : ErrorCode} : (∃ result ∈ (result? leader part code).toList, result.code = .filterOut) ↔
      code = .filterOut := by
  cases code with
  | leaderChanged =>
    cases hleader : leader part <;> simp [result?, hleader, EngineCode.toErrorCode_ne_filterOut]
  | _ => simp [result?]

namespace Session

/-- A request of one unit is answered with what that unit reports. -/
theorem finish_report (s : Session) (htracker : s.tracker = .start 1) (hqueued : s.queued = [])
    (part : PartId) (code : ErrorCode) :
    (s.report part code).finish =
      (s.node, { failed := (Tracker.result? (s.node.leader s.space) part code).toList }) := by
  obtain ⟨node, space, tracker, queued⟩ := s
  subst htracker hqueued
  cases hentry : Tracker.result? (node.leader space) part code <;>
    simp [report, finish, drain, performAll, Tracker.start, Tracker.complete, Tracker.record,
      Tracker.countDown, Tracker.finish, Tracker.outcome, hentry]

end Session

namespace Node

variable {node : Node} {req : UpdateVertex} {removes : List Bytes} {puts : List Entry}
  {props : Props} {inserted : Bool}

/-- An update that cannot be prepared reports why. -/
theorem updateVertex_of_error {code : ErrorCode} (h : req.prepare node = .error code) :
    node.updateVertex req = (node, { result := {
      failed := (Tracker.result? (node.leader req.space) req.part code).toList } }) := by
  unfold updateVertex
  rw [h]
  dsimp only
  rw [Session.finish_report _ rfl rfl]
  rfl

/-- An update whose condition does not hold reports that, with the row as it is. -/
theorem updateVertex_of_filtered (h : req.prepare node = .ok (.filtered props)) :
    node.updateVertex req = (node, {
      result := { failed := (Tracker.result? (node.leader req.space) req.part .filterOut).toList }
      props := some (req.returned false props) }) := by
  unfold updateVertex
  rw [h]
  dsimp only
  rw [Session.finish_report _ rfl rfl]
  rfl

/-- An update that writes reports how its write was answered, and returns the row if it was done. -/
theorem updateVertex_response (h : req.prepare node = .ok (.write removes puts props inserted)) :
    (∃ leader, (node.updateVertex req).2.result.failed = (Tracker.result? leader req.part
        (node.writeCode req.space req.part).toErrorCode).toList) ∧
      ((node.updateVertex req).2.result.failed = [] →
        (node.updateVertex req).2.props = some (req.returned inserted props)) := by
  let evicted := node.evict [{ space := req.space, vid := req.vertex, tag := req.tag }]
  let after := (evicted.perform req.space req.part (.replace removes puts)).1
  have hcode : (evicted.perform req.space req.part (.replace removes puts)).2 =
      node.writeCode req.space req.part := perform_code ..
  have hfailed : (node.updateVertex req).2.result.failed = (Tracker.result?
      (after.leader req.space) req.part (node.writeCode req.space req.part).toErrorCode).toList := by
    unfold updateVertex
    rw [h, ← hcode]
    dsimp only
    rw [Session.perform, Session.finish_report _ rfl rfl]
    rfl
  refine ⟨⟨_, hfailed⟩, fun hnone => ?_⟩
  unfold updateVertex at hnone ⊢
  rw [h] at hnone ⊢
  dsimp only at hnone ⊢
  rw [Session.perform, Session.finish_report _ rfl rfl] at hnone ⊢
  simp only at hnone
  simp [Response.succeeded, hnone]

/-- The partitions after an update that writes. -/
theorem updateVertex_parts (h : req.prepare node = .ok (.write removes puts props inserted))
    (addr : Address) : (node.updateVertex req).1.store.parts[addr]? =
      if addr = ⟨req.space, req.part⟩ ∧ node.Writable addr then
        node.store.parts[addr]?.map fun p => (p.remove removes).put puts
      else node.store.parts[addr]? := by
  rw [updateVertex_of_write h, perform_parts]
  rfl

/-- An update that writes lists no failure when its write succeeds. -/
theorem updateVertex_failed_eq_nil
    (h : req.prepare node = .ok (.write removes puts props inserted)) :
    (node.updateVertex req).2.result.failed = [] ↔
      node.writeCode req.space req.part = .succeeded := by
  obtain ⟨⟨leader, hfailed⟩, -⟩ := updateVertex_response h
  rw [hfailed, Option.toList_eq_nil_iff, Tracker.result?_eq_none,
    EngineCode.toErrorCode_eq_succeeded]

/-- An update whose write is refused leaves every partition as it is. -/
theorem updateVertex_parts_of_refused
    (h : req.prepare node = .ok (.write removes puts props inserted))
    (hcode : node.writeCode req.space req.part ≠ .succeeded) :
    (node.updateVertex req).1.store.parts = node.store.parts := by
  refine Std.ExtTreeMap.ext_getElem? fun addr => ?_
  rw [updateVertex_parts h]
  by_cases haddr : addr = ⟨req.space, req.part⟩
  · subst haddr
    simpa using content_of_refused hcode _
  · simp [haddr]

/-- An update whose write succeeds has put the row that its updates make in place of the old one, and
returns that row. -/
theorem updateVertex_fulfils (hhonest : node.store.HonestFailures)
    (hnames : ∀ schema, node.catalog.schema? req.space (.tag req.tag) = some schema →
      schema.names.Nodup)
    (h : req.prepare node = .ok (.write removes puts props inserted))
    (hcode : node.writeCode req.space req.part = .succeeded) :
    ∃ layout schema condition key old new, req.Accepted node layout schema condition key ∧
      req.Fulfils node (node.updateVertex req).1 layout schema key old new ∧
      (node.updateVertex req).2.props = some (req.answer schema old new) := by
  have hparts := updateVertex_parts h
  have hreturned := (updateVertex_response h).2 ((updateVertex_failed_eq_nil h).2 hcode)
  obtain ⟨hwritable, hthere⟩ := (writeCode_eq_succeeded hhonest).1 hcode
  obtain ⟨p, hp⟩ := Option.isSome_iff_exists.1 hthere
  obtain ⟨layout, schema, condition, key, old, new, haccepted, hfinds, hstores, hindexed,
    hreplaces, rfl, rfl⟩ := UpdateVertex.replaces_of_prepare hnames h
  refine ⟨layout, schema, condition, key, old, new, haccepted, ⟨hfinds, hstores, hindexed,
    ⟨p, (p.remove removes).put puts, hp, ?_, hreplaces p⟩, fun addr haddr => ?_⟩, ?_⟩
  · rw [hparts, if_pos ⟨rfl, hwritable⟩, hp]
    rfl
  · rw [hparts, if_neg fun h => haddr h.1]
  · rw [hreturned, UpdateVertex.returned, UpdateVertex.lookup_eq,
      Props.get?_ofRow_eq (hnames schema haccepted.schema_eq)]
    rfl

end Node

/-- An update is done as a whole or not at all. If a failure is listed, no partition is changed; the
condition is the failure exactly when the request passes its checks and finds a row that the
condition is not true of. If none is listed, the row that the updates make is in place of the old
one, with its index entries, and is what the response returns. -/
theorem Node.updateVertex_atomic {node : Node} (hhonest : node.store.HonestFailures)
    (req : UpdateVertex) (hnames : ∀ schema, node.catalog.schema? req.space (.tag req.tag) =
      some schema → schema.names.Nodup) :
    ((node.updateVertex req).2.result.failed ≠ [] →
      (node.updateVertex req).1.store.parts = node.store.parts) ∧
    ((∃ result ∈ (node.updateVertex req).2.result.failed, result.code = .filterOut) ↔
      req.Rejects node) ∧
    ((node.updateVertex req).2.result.failed = [] →
      ∃ layout schema condition key old new, req.Accepted node layout schema condition key ∧
        req.Fulfils node (node.updateVertex req).1 layout schema key old new ∧
        (node.updateVertex req).2.props = some (req.answer schema old new)) := by
  rw [UpdateVertex.rejects_iff hnames]
  cases hprepare : req.prepare node with
  | error code =>
    have htruthful := hprepare ▸ req.prepare_truthful node
    rw [updateVertex_of_error hprepare]
    refine ⟨fun _ => rfl, ?_, fun hnone => ?_⟩
    · rw [Tracker.exists_filterOut_iff]
      constructor
      · rintro rfl
        exact (htruthful.ne_filterOut rfl).elim
      · rintro ⟨props, heq⟩
        cases heq
    · rw [Option.toList_eq_nil_iff, Tracker.result?_eq_none] at hnone
      subst hnone
      exact (htruthful.ne_succeeded rfl).elim
  | ok prepared =>
    cases prepared with
    | filtered props =>
      rw [updateVertex_of_filtered hprepare]
      refine ⟨fun _ => rfl, ?_, nofun⟩
      rw [Tracker.exists_filterOut_iff]
      exact ⟨fun _ => ⟨props, rfl⟩, fun _ => rfl⟩
    | write removes puts props inserted =>
      have hsuccess := updateVertex_failed_eq_nil hprepare
      refine ⟨fun hlisted => updateVertex_parts_of_refused hprepare fun h => hlisted (hsuccess.2 h),
        ?_, fun hnone => updateVertex_fulfils hhonest hnames hprepare (hsuccess.1 hnone)⟩
      obtain ⟨⟨leader, hfailed⟩, -⟩ := updateVertex_response hprepare
      rw [hfailed, Tracker.exists_filterOut_iff]
      constructor
      · exact fun h => absurd h (EngineCode.toErrorCode_ne_filterOut _)
      · rintro ⟨props, heq⟩
        cases heq

/-- A person older than five who is made a year older is replaced as a whole. -/
theorem Node.updateVertex_atomic_of_birthday :
    let key : Bytes := [1, 0, 0, 1, 97, 0, 0, 0, 128, 0, 0, 3]
    let node : Node := {
      store := ((({} : Store).addPart ⟨1, 1⟩ default).multiPut ⟨1, 1⟩ [(key, Row.toBytes [.int 7])]).1
      catalog := .people
      placement := .table [] }
    let req : UpdateVertex := {
      space := 1, part := 1, vertex := "a", tag := 3
      updates := [⟨"age", .arithmetic .add (.property "age") (.constant (.int 1))⟩]
      returnProps := ["age"]
      condition := (Expr.relational .gt (.property "age") (.constant (.int 5))).encode }
    node.store.HonestFailures ∧
      (∀ schema, node.catalog.schema? req.space (.tag req.tag) = some schema →
        schema.names.Nodup) ∧
      ¬ req.Rejects node ∧ ∃ layout schema condition old new,
        req.Accepted node layout schema condition key ∧
        req.Fulfils node (node.updateVertex req).1 layout schema key old new ∧
        req.answer schema old new = ⟨["_inserted", "age"], [[.bool false, .int 8]]⟩ := by
  intro key node req
  have hhonest : node.store.HonestFailures := by
    intro addr
    have hfailures : node.store.failures = (∅ : Std.ExtTreeMap Address EngineCode) :=
      (Store.frame_write ..).2
    simp [hfailures]
  have hnames (schema : Schema) (h : node.catalog.schema? req.space (.tag req.tag) = some schema) :
      schema.names.Nodup := Catalog.people_sound.names _ _ schema h
  obtain ⟨-, hrejects, hfulfils⟩ := updateVertex_atomic hhonest req hnames
  have hdone : (node.updateVertex req).2.result.failed = [] := by decide +kernel
  have hprops : (node.updateVertex req).2.props =
      some ⟨["_inserted", "age"], [[.bool false, .int 8]]⟩ := by decide +kernel
  obtain ⟨layout, schema, condition, key', old, new, haccepted, hdid, hanswer⟩ := hfulfils hdone
  refine ⟨hhonest, hnames, ?_, ?_⟩
  · rw [← hrejects, hdone]
    nofun
  have hkey : Key.vertex layout.vidLen req.part req.vertex req.tag = .ok key := by
    have hwidth : node.catalog.vidLen req.space = .ok 4 := by
      rw [Catalog.vidLen, Catalog.entry_people]
      rfl
    rw [Except.ok.inj ((Node.layout_eq_ok.1 haccepted.layout_eq).1.symm.trans hwidth)]
    decide
  obtain rfl : key' = key := Except.ok.inj (haccepted.key_eq.symm.trans hkey)
  exact ⟨layout, schema, condition, old, new, haccepted, hdid,
    Option.some.inj (hanswer.symm.trans hprops)⟩

end GraphStore
