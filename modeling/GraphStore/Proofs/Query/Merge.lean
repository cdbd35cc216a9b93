import GraphStore.Proofs.Fanout.Flight
import GraphStore.Proofs.Query.Failures
import GraphStore.Proofs.Query.Hits

/-!
# A lookup merges its partitions

The tasks of a lookup run side by side, one for each requested partition, however often it is
requested. A task keeps the rows that the plan finds under its partition and then completes; what is
kept does not depend on the order, and neither does what is listed, since the tasks of one partition
are alike. So the answer is the rows of the partitions that succeed, in ascending order of the
partitions, beside an entry for each partition that fails.
-/

namespace GraphStore

open Relation (ReflTransGen)

variable {leader : PartId → Except EngineCode Host}

namespace Tracker

/-- The failure of a partition has one entry. -/
theorem Tells.unique {part : PartId} {code : ErrorCode} {entry other : PartResult}
    (h : Tells leader part code entry) (h' : Tells leader part code other) : entry = other := by
  cases h with
  | moved hleader =>
    cases h' with
    | moved hleader' =>
      rw [Except.ok.inj (hleader.symm.trans hleader')]
    | lost hleader' => cases hleader.symm.trans hleader'
    | plain _ hstays => exact absurd rfl hstays
  | lost hleader =>
    cases h' with
    | moved hleader' => cases hleader.symm.trans hleader'
    | lost hleader' => rw [Except.error.inj (hleader.symm.trans hleader')]
    | plain _ hstays => exact absurd rfl hstays
  | plain _ hstays =>
    cases h' with
    | moved => exact absurd rfl hstays
    | lost => exact absurd rfl hstays
    | plain => rfl

/-- An entry tells of no success. -/
theorem Tells.ne_succeeded {part : PartId} {code : ErrorCode} {entry : PartResult}
    (h : Tells leader part code entry) : code ≠ .succeeded := by
  cases h with
  | moved => decide
  | lost => decide
  | plain hfailed => exact hfailed

end Tracker

namespace Lookup

/-- The rows of a partition are kept if its plan succeeds. -/
def keep (found : PartMap (List Row)) (result : PartRows) : PartMap (List Row) :=
  match result.outcome with
  | .ok rows => found.insert result.part rows
  | .error _ => found

/-- What is kept of partitions one after another. -/
def keepAll (find : PartId → Except ErrorCode (List Row)) (order : List PartId) :
    PartMap (List Row) :=
  order.foldl (fun found part => keep found ⟨part, find part⟩) ∅

/-- The completion of a partition's task. -/
def completion (find : PartId → Except ErrorCode (List Row)) (part : PartId) : PartId × ErrorCode :=
  (part, PartRows.code ⟨part, find part⟩)

variable {find : PartId → Except ErrorCode (List Row)} {parts order : List PartId}

/-- Findings that differ in their rows alone complete alike. -/
theorem completion_congr {found : PartId → Except ErrorCode (List Row)} {part : PartId}
    {change : List Row → List Row} (h : (found part).map change = (find part).map change) :
    completion found part = completion find part := by
  unfold completion PartRows.code
  cases hfound : found part with
  | error code =>
    rw [hfound] at h
    cases hfind : find part with
    | error other =>
      rw [hfind] at h
      cases h
      rfl
    | ok rows =>
      rw [hfind] at h
      cases h
  | ok rows =>
    rw [hfound] at h
    cases hfind : find part with
    | error other =>
      rw [hfind] at h
      cases h
    | ok rows' => rfl

/-- What is kept of a partition are its own rows. -/
theorem getElem?_keepAll (find : PartId → Except ErrorCode (List Row)) (order : List PartId)
    (part : PartId) :
    (keepAll find order)[part]? = if part ∈ order then (find part).toOption else none := by
  induction order using List.reverseRecOn with
  | nil => simp [keepAll]
  | append_singleton order last ih =>
    have hlast : keepAll find (order ++ [last]) = keep (keepAll find order) ⟨last, find last⟩ := by
      simp [keepAll]
    rw [hlast, keep]
    by_cases heq : part = last
    · subst heq
      cases hrun : find part with
      | ok rows => simp [Except.toOption]
      | error code => simp [ih, hrun, Except.toOption]
    · have hne : compare last part ≠ .eq := fun h =>
        heq (Std.LawfulEqCmp.compare_eq_iff_eq.1 h).symm
      cases find last with
      | ok rows => simp [Std.ExtTreeMap.getElem?_insert, hne, ih, heq]
      | error code => simp [ih, heq]

/-- What is kept does not depend on the order, nor on partitions that are not asked for. -/
theorem keepAll_congr {others : List PartId} {found : PartId → Except ErrorCode (List Row)}
    (hparts : ∀ part, part ∈ others ↔ part ∈ order)
    (h : ∀ part ∈ order, found part = find part) : keepAll found others = keepAll find order := by
  apply Std.ExtTreeMap.ext_getElem?
  intro part
  rw [getElem?_keepAll, getElem?_keepAll]
  by_cases hpart : part ∈ order
  · rw [if_pos hpart, if_pos ((hparts part).2 hpart), h part hpart]
  · rw [if_neg hpart, if_neg (mt (hparts part).1 hpart)]

/-- What is kept of rows that are changed are the changed rows. -/
theorem keepAll_map (find : PartId → Except ErrorCode (List Row)) (change : List Row → List Row)
    (order : List PartId) :
    keepAll (fun part => (find part).map change) order =
      (keepAll find order).map fun _ => change := by
  apply Std.ExtTreeMap.ext_getElem?
  intro part
  rw [Std.ExtTreeMap.getElem?_map, getElem?_keepAll, getElem?_keepAll]
  split
  · cases find part <;> rfl
  · rfl

/-- The tasks of a lookup. -/
structure Tasks where
  /-- Partitions whose tasks have not run. -/
  waiting : Multiset PartId
  /-- Partitions whose tasks have run, in order. -/
  done : List PartId := []
  /-- The rows kept. -/
  found : PartMap (List Row) := ∅
  /-- The completions of the tasks that have run. -/
  fanIn : FanIn

namespace Tasks

/-- A step of a lookup: a task runs, or a completion takes a step. -/
inductive Step (find : PartId → Except ErrorCode (List Row))
    (leader : PartId → Except EngineCode Host) : Tasks → Tasks → Prop where
  | run (part : PartId) (waiting : Multiset PartId) (done : List PartId)
      (found : PartMap (List Row)) (fanIn : FanIn) :
      Step find leader ⟨part ::ₘ waiting, done, found, fanIn⟩
        ⟨waiting, done ++ [part], keep found ⟨part, find part⟩, fanIn.join {completion find part}⟩
  | complete (waiting : Multiset PartId) (done : List PartId) (found : PartMap (List Row))
      {fanIn next : FanIn} (h : fanIn.Step leader next) :
      Step find leader ⟨waiting, done, found, fanIn⟩ ⟨waiting, done, found, next⟩

/-- A lookup before the first of its tasks has run. -/
def start (parts : List PartId) : Tasks where
  waiting := parts
  fanIn := { tracker := .start parts.length, arriving := 0 }

/-- What holds however the tasks run: none is lost, the rows are kept that were found, and the
completions of all tasks are on their way or have come. -/
structure Follows (find : PartId → Except ErrorCode (List Row))
    (leader : PartId → Except EngineCode Host) (parts : List PartId) (s : Tasks) : Prop where
  all : (s.done : Multiset PartId) + s.waiting = parts
  kept : s.found = keepAll find s.done
  coming : (s.fanIn.join (s.waiting.map (completion find))).Follows leader
    (parts.map (completion find))

variable {s next : Tasks}

/-- At first no task has run. -/
theorem follows_start (find : PartId → Except ErrorCode (List Row))
    (leader : PartId → Except EngineCode Host) (parts : List PartId) :
    (start parts).Follows find leader parts where
  all := Multiset.zero_add _
  kept := rfl
  coming := by
    have hstart := FanIn.follows_start leader (parts.map (completion find))
    rw [FanIn.start, List.length_map] at hstart
    rw [start, FanIn.join, Multiset.zero_add]
    exact hstart

/-- A step keeps what holds. -/
theorem Follows.step (h : s.Follows find leader parts) (hstep : s.Step find leader next) :
    next.Follows find leader parts := by
  cases hstep with
  | run part waiting done found fanIn =>
    obtain ⟨hall, hkept, hcoming⟩ := h
    dsimp only at hall hkept hcoming
    refine ⟨?_, ?_, ?_⟩
    · rw [← hall, ← Multiset.coe_add, Multiset.coe_singleton, Multiset.add_assoc,
        Multiset.singleton_add]
    · simp [hkept, keepAll]
    · rw [Multiset.map_cons, ← Multiset.singleton_add] at hcoming
      rw [FanIn.join_join]
      exact hcoming
  | complete waiting done found hcomplete =>
    exact ⟨h.all, h.kept, h.coming.step (hcomplete.join _)⟩

/-- What holds at first holds after every run. -/
theorem Follows.run (h : s.Follows find leader parts)
    (hrun : ReflTransGen (Step find leader) s next) :
    next.Follows find leader parts := by
  induction hrun with
  | refl => exact h
  | tail _ hstep ih => exact ih.step hstep

/-- When failures have been handed over, every task has run, and they are those of all tasks. -/
theorem Follows.finished (h : s.Follows find leader parts) {failed : List PartResult}
    (hfinished : s.fanIn.tracker.finished = [failed]) :
    s.done.Perm parts ∧ s.found = keepAll find s.done ∧
      s.fanIn.log.Perm (parts.map (completion find)) ∧
      failed = collectFailures leader s.fanIn.log := by
  obtain ⟨hnone, hlog, hfailed⟩ := h.coming.handedOver hfinished
  have hall := h.all
  rw [Multiset.map_eq_zero.1 hnone, Multiset.add_zero] at hall
  exact ⟨Multiset.coe_eq_coe.1 hall, h.kept, Multiset.coe_eq_coe.1 hlog, hfailed⟩

/-- Tasks can run one after another in any order, each completing at once. -/
theorem run_of_list (find : PartId → Except ErrorCode (List Row))
    (leader : PartId → Except EngineCode Host) (order done : List PartId)
    (found : PartMap (List Row)) (tracker : Tracker) (log : List (PartId × ErrorCode))
    (counted : Nat) :
    ∃ last, ReflTransGen (Step find leader) ⟨order, done, found, ⟨tracker, 0, 0, log, counted⟩⟩
        last ∧
      last.waiting = 0 ∧ last.done = done ++ order ∧ last.fanIn.arriving = 0 ∧
      last.fanIn.between = 0 ∧ last.fanIn.log = log ++ order.map (completion find) := by
  induction order generalizing done found tracker log counted with
  | nil => exact ⟨_, .refl, rfl, by simp, rfl, rfl, by simp⟩
  | cons part order ih =>
    obtain ⟨last, hrest, hlast⟩ := ih (done ++ [part]) (keep found ⟨part, find part⟩)
      (tracker.record leader (completion find part).1 (completion find part).2).countDown
      (log ++ [completion find part]) (counted + 1)
    have hrun := @Step.run find leader part order done found ⟨tracker, 0, 0, log, counted⟩
    have hrecord := @FanIn.Step.record leader tracker (completion find part).1
      (completion find part).2 0 0 log counted
    have hcountDown := @FanIn.Step.countDown leader
      (tracker.record leader (completion find part).1 (completion find part).2)
      (completion find part) 0 0 (log ++ [completion find part]) counted
    refine ⟨last, .head hrun (.head (.complete _ _ _ hrecord)
      (.head (.complete _ _ _ hcountDown) hrest)), ?_⟩
    simpa using hlast

end Tasks

/-- What a plan finds on a partition when nothing is cached. -/
def outcome (req : Lookup) (node : Node) (vidLen : Nat) (plan : Plan) (part : PartId) :
    Except ErrorCode (List Row) :=
  let run := plan.go (req.scope node vidLen) part none
  run.result.map fun _ => run.rows

/-- Rows can be changed before they are bounded or after. -/
theorem map_limited (bound : Nat) (change : Row → Row) (rows : List Row) :
    (limited bound rows).map change = limited bound (rows.map change) := by
  unfold limited
  split
  · rfl
  · exact List.map_take

variable {req : Lookup} {node : Node} {vidLen : Nat} {plan : Plan} {code : ErrorCode}

/-- Without a cache the partitions of a lookup are looked at each by itself. -/
theorem runParts_none (h : req.plan node = .ok (vidLen, plan)) (order : List PartId) :
    runParts (req.scope node vidLen) plan none order =
      (none, order.map fun part => ⟨part, req.outcome node vidLen plan part⟩) := by
  induction order with
  | nil => rfl
  | cons part order ih =>
    obtain ⟨hcache, -⟩ := Plan.go_none (plan_eq_ok.1 h).2 (req.scope node vidLen) part
    simp only [runParts, hcache, ih]
    rfl

/-- The rows of partitions are merged as they are kept. -/
theorem merge_map (find : PartId → Except ErrorCode (List Row)) (order : List PartId) :
    merge (order.map fun part => ⟨part, find part⟩) =
      ((keepAll find order).toList.map (·.2)).flatten := by
  unfold merge keepAll
  dsimp only
  rw [List.foldl_map]
  rfl

/-- The answer to a lookup merges what its plan comes to on the partitions: the rows of those on
which it succeeds, in ascending order of the partitions and up to the bound, and one entry for each
of those on which it fails. -/
structure Merges (req : Lookup) (node : Node) (vidLen : Nat) (plan : Plan)
    (response : LookupResponse) : Prop where
  accepted : response.result.requestCode = none
  rows : ∃ succeeded : List (PartId × List Row), succeeded.Pairwise (·.1 < ·.1) ∧
    (∀ part rows, (part, rows) ∈ succeeded ↔
      part ∈ req.parts ∧ req.outcome node vidLen plan part = .ok rows) ∧
    response.data.rows =
      if node.config.lookupMaxRows = 0 then succeeded.flatMap (·.2)
      else (succeeded.flatMap (·.2)).take node.config.lookupMaxRows
  nodup : (response.result.failed.map (·.part)).Nodup
  parts : ∀ part, part ∈ response.result.failed.map (·.part) ↔
    part ∈ req.parts ∧ ∃ code, req.outcome node vidLen plan part = .error code
  tells : ∀ entry ∈ response.result.failed, ∃ code,
    req.outcome node vidLen plan entry.part = .error code ∧
      Tracker.Tells (node.leader req.space) entry.part code entry

/-- The answer to a lookup refuses it with a code, for each partition and as a whole. -/
structure Refuses (req : Lookup) (code : ErrorCode) (response : LookupResponse) : Prop where
  refused : response.result.requestCode = some code
  rows : response.data.rows = []
  nodup : (response.result.failed.map (·.part)).Nodup
  failed : ∀ entry, entry ∈ response.result.failed ↔
    entry.part ∈ req.parts ∧ entry = { part := entry.part, code }

end Lookup

namespace Node

open Lookup (Tasks)

variable {node : Node} {req : Lookup} {result : Node × LookupResponse}

/-- Without a cache the partitions of a lookup that has a plan are looked at each by itself. -/
theorem lookupInOrder_of_plan (hcache : node.cache = none) {vidLen : Nat} {plan : Plan}
    (hplan : req.plan node = .ok (vidLen, plan)) (order : List PartId) :
    node.lookupInOrder req order = (node, {
      result := {
        failed := collectFailures (node.leader req.space)
          (order.map (Lookup.completion (req.outcome node vidLen plan))) }
      data := {
        columns := resultColumns req.indices.isEdge req.returnColumns
        rows := Lookup.limited node.config.lookupMaxRows
          ((Lookup.keepAll (req.outcome node vidLen plan) order).toList.map (·.2)).flatten } }) := by
  have hnode : { node with cache := none } = node := by
    rw [← hcache]
  simp only [lookupInOrder, hplan]
  rw [hcache, Lookup.runParts_none hplan, reportParts_eq, List.map_map]
  dsimp only
  rw [hnode, Lookup.merge_map]
  rfl

end Node

end GraphStore
