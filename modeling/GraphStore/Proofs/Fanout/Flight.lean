import GraphStore.Proofs.Fanout.FanIn
import GraphStore.Proofs.Fanout.Units
import GraphStore.Proofs.Outcome
import GraphStore.Proofs.Storage.Commute
import Mathlib.Data.Multiset.MapFold

/-!
# Units of work side by side

The units of a request are carried out in any order, and their completions find their way to the
tracker in any other. A request whose units may change places leaves the same node behind whatever
the order, and its response lists the same failures.
-/

namespace GraphStore

open Relation (ReflTransGen)

namespace FanIn

/-- More completions on their way. -/
def join (more : Multiset (PartId × ErrorCode)) (s : FanIn) : FanIn :=
  { s with arriving := s.arriving + more }

/-- Completions join one after another or together. -/
theorem join_join (s : FanIn) (more others : Multiset (PartId × ErrorCode)) :
    (s.join more).join others = s.join (more + others) := by
  rw [join, join, join, Multiset.add_assoc]

/-- Steps are the same with more completions on their way. -/
theorem Step.join {leader : PartId → Except EngineCode Host} {s next : FanIn}
    (h : s.Step leader next) (more : Multiset (PartId × ErrorCode)) :
    (s.join more).Step leader (next.join more) := by
  cases h with
  | record tracker part code arriving between log counted =>
    rw [FanIn.join, Multiset.cons_add]
    exact .record ..
  | countDown tracker completion arriving between log counted => exact .countDown ..

/-- When failures have been handed over, no completion is left, and they are those of all
completions. -/
theorem Follows.handedOver {leader : PartId → Except EngineCode Host} {s : FanIn}
    {more completions : Multiset (PartId × ErrorCode)}
    (h : (s.join more).Follows leader completions) {failed : List PartResult}
    (hfinished : s.tracker.finished = [failed]) :
    more = 0 ∧ (s.log : Multiset (PartId × ErrorCode)) = completions ∧
      failed = collectFailures leader s.log := by
  have htracker := h.tracker
  have hover : (s.arriving + more).card + s.between.card = 0 := by
    by_contra hleft
    have hnone := Tracker.finished_expecting (collectFailures leader s.log)
      (Nat.pos_of_ne_zero hleft)
    have hfinished' := congrArg Tracker.finished htracker
    rw [FanIn.join] at hfinished'
    rw [hnone, hfinished] at hfinished'
    cases hfinished'
  rw [Multiset.card_add] at hover
  have hmore : more = 0 := Multiset.card_eq_zero.1 (by omega)
  have harriving : s.arriving = 0 := Multiset.card_eq_zero.1 (by omega)
  have hbetween : s.between = 0 := Multiset.card_eq_zero.1 (by omega)
  have hjoin : s.join more = s := by
    rw [FanIn.join, hmore, Multiset.add_zero]
  obtain ⟨hlog, hexpecting⟩ := (hjoin ▸ h).finished harriving hbetween
  rw [hexpecting] at hfinished
  exact ⟨hmore, hlog, (List.singleton_inj.1 hfinished).symm⟩

end FanIn

namespace WorkUnit

/-- Carries out a unit: the node after it, and its completion. -/
def carryOut (node : Node) (space : SpaceId) : WorkUnit → Node × (PartId × ErrorCode)
  | report part code => (node, part, code)
  | write part w =>
    let (node, code) := node.perform space part w
    (node, part, code.toErrorCode)

/-- Units of which those for one partition may change places: its writes do, and a unit that reports
a code has the partition to itself. -/
structure Independent (units : List WorkUnit) : Prop where
  commute : ∀ part w w', write part w ∈ units → write part w' ∈ units → w.Commute w'
  alone : ∀ part code, report part code ∈ units → ∀ unit ∈ units, unit.part = part →
    unit = report part code

/-- The writes of some units after those of others. -/
theorem writes_append (units others : List WorkUnit) :
    writes (units ++ others) = writes units ++ writes others :=
  List.filterMap_append

/-- Units that only write have their writes. -/
theorem writes_map_write (entries : List (PartId × Write)) :
    writes (entries.map fun (part, w) => write part w) = entries := by
  induction entries with
  | nil => rfl
  | cons entry entries ih => exact congrArg (entry :: ·) ih

/-- Units are those that report and those that write. -/
theorem perm_reports_writes (units : List WorkUnit) :
    ((reports units).map (fun (part, code) => report part code) ++
      (writes units).map (fun (part, w) => write part w)).Perm units := by
  induction units with
  | nil => exact .refl []
  | cons unit units ih =>
    cases unit with
    | report part code => exact ih.cons _
    | write part w => exact List.perm_middle.trans (ih.cons _)

end WorkUnit

namespace Node

/-- The completion of a unit, which depends on the setting alone. -/
def completion (node : Node) (space : SpaceId) : WorkUnit → PartId × ErrorCode
  | .report part code => (part, code)
  | .write part _ => (part, (node.writeCode space part).toErrorCode)

variable {node other : Node} {space : SpaceId}

/-- Carrying out a unit carries out its write, if it has one. -/
theorem carryOut_eq (node : Node) (space : SpaceId) (unit : WorkUnit) :
    unit.carryOut node space =
      (node.performAll space (WorkUnit.writes [unit]), node.completion space unit) := by
  cases unit with
  | report part code => rfl
  | write part w =>
    rw [completion, ← perform_code node space part w]
    rfl

/-- The completions of units are the same in the same setting. -/
theorem completion_of_sameSetting (h : SameSetting node other) :
    other.completion space = node.completion space := by
  funext unit
  cases unit with
  | report part code => rfl
  | write part w => rw [completion, completion, h.writeCode]

/-- The completions of units, one by one. -/
theorem completions_eq (node : Node) (space : SpaceId) (units : List WorkUnit) :
    node.completions space units =
      ((WorkUnit.reports units).map (fun (part, code) => WorkUnit.report part code) ++
        (WorkUnit.writes units).map (fun (part, w) => WorkUnit.write part w)).map
          (node.completion space) := by
  rw [completions, List.map_append, List.map_map, List.map_map]
  exact congrArg (· ++ _) (List.map_id _).symm

/-- Writes after others. -/
theorem performAll_append (node : Node) (space : SpaceId) (writes others : List (PartId × Write)) :
    node.performAll space (writes ++ others) =
      (node.performAll space writes).performAll space others :=
  List.foldl_append

end Node

/-- A request whose units are carried out side by side. -/
structure Flight where
  node : Node
  /-- Units that have not been carried out. -/
  units : Multiset WorkUnit
  /-- Units that have been carried out, in order. -/
  done : List WorkUnit := []
  /-- The completions of the units that have been carried out. -/
  fanIn : FanIn

namespace Flight

/-- A step of a request: a unit is carried out, or a completion takes a step. -/
inductive Step (space : SpaceId) : Flight → Flight → Prop where
  | carryOut (node : Node) (unit : WorkUnit) (units : Multiset WorkUnit) (done : List WorkUnit)
      (fanIn : FanIn) :
      Step space ⟨node, unit ::ₘ units, done, fanIn⟩
        ⟨(unit.carryOut node space).1, units, done ++ [unit],
          fanIn.join {(unit.carryOut node space).2}⟩
  | complete (node : Node) (units : Multiset WorkUnit) (done : List WorkUnit) {fanIn next : FanIn}
      (h : fanIn.Step (node.leader space) next) :
      Step space ⟨node, units, done, fanIn⟩ ⟨node, units, done, next⟩

/-- A request before the first of its units is carried out. -/
def start (node : Node) (units : List WorkUnit) : Flight where
  node
  units
  fanIn := { tracker := .start units.length, arriving := 0 }

/-- What holds however the units are carried out: none is lost, those that have been carried out
left behind what they do one after another, and the completions of all of them are on their way or
have come. -/
structure Follows (node : Node) (space : SpaceId) (units : List WorkUnit) (s : Flight) : Prop where
  all : (s.done : Multiset WorkUnit) + s.units = units
  carried : s.node = node.performAll space (WorkUnit.writes s.done)
  coming : (s.fanIn.join (s.units.map (node.completion space))).Follows (node.leader space)
    (units.map (node.completion space))

variable {node : Node} {space : SpaceId} {units : List WorkUnit} {s next : Flight}

/-- At first nothing has been carried out. -/
theorem follows_start (node : Node) (space : SpaceId) (units : List WorkUnit) :
    (start node units).Follows node space units where
  all := Multiset.zero_add _
  carried := rfl
  coming := by
    have hstart := FanIn.follows_start (node.leader space) (units.map (node.completion space))
    rw [FanIn.start, List.length_map] at hstart
    rw [start, FanIn.join, Multiset.zero_add]
    exact hstart

/-- A step keeps what holds. -/
theorem Follows.step (h : s.Follows node space units) (hstep : s.Step space next) :
    next.Follows node space units := by
  have hsetting : SameSetting node s.node := h.carried ▸ Node.performAll_sameSetting ..
  cases hstep with
  | carryOut before unit rest done fanIn =>
    obtain ⟨hall, hcarried, hcoming⟩ := h
    dsimp only at hall hcarried hcoming hsetting
    rw [Node.carryOut_eq, Node.completion_of_sameSetting hsetting]
    refine ⟨?_, ?_, ?_⟩
    · rw [← hall, ← Multiset.coe_add, Multiset.coe_singleton, Multiset.add_assoc,
        Multiset.singleton_add]
    · rw [WorkUnit.writes_append, Node.performAll_append, ← hcarried]
    · rw [Multiset.map_cons, ← Multiset.singleton_add] at hcoming
      rw [FanIn.join_join]
      exact hcoming
  | complete before rest done hcomplete =>
    rw [hsetting.leader] at hcomplete
    exact ⟨h.all, h.carried, h.coming.step (hcomplete.join _)⟩

/-- What holds at first holds after every run. -/
theorem Follows.run (h : s.Follows node space units) (hrun : ReflTransGen (Step space) s next) :
    next.Follows node space units := by
  induction hrun with
  | refl => exact h
  | tail _ hstep ih => exact ih.step hstep

/-- When failures have been handed over, every unit has been carried out, and they are those of all
completions. -/
theorem Follows.finished (h : s.Follows node space units) {failed : List PartResult}
    (hfinished : s.fanIn.tracker.finished = [failed]) :
    s.done.Perm units ∧ s.node = node.performAll space (WorkUnit.writes s.done) ∧
      s.fanIn.log.Perm (units.map (node.completion space)) ∧
      failed = collectFailures (node.leader space) s.fanIn.log := by
  obtain ⟨hnone, hlog, hfailed⟩ := h.coming.handedOver hfinished
  have hall := h.all
  rw [Multiset.map_eq_zero.1 hnone, Multiset.add_zero] at hall
  exact ⟨Multiset.coe_eq_coe.1 hall, h.carried, Multiset.coe_eq_coe.1 hlog, hfailed⟩

/-- Units can be carried out one after another in any order, each completing at once. -/
theorem run_of_list (node : Node) (space : SpaceId) (order done : List WorkUnit)
    (tracker : Tracker) (log : List (PartId × ErrorCode)) (counted : Nat) :
    ∃ after, ReflTransGen (Step space) ⟨node, order, done, ⟨tracker, 0, 0, log, counted⟩⟩
      ⟨node.performAll space (WorkUnit.writes order), 0, done ++ order,
        ⟨after, 0, 0, log ++ order.map (node.completion space), counted + order.length⟩⟩ := by
  induction order generalizing node done tracker log counted with
  | nil =>
    refine ⟨tracker, ?_⟩
    rw [List.append_nil, List.map_nil, List.append_nil]
    exact .refl
  | cons unit order ih =>
    obtain ⟨after, hrest⟩ := ih (node.performAll space (WorkUnit.writes [unit])) (done ++ [unit])
      (tracker.record (node.leader space) (node.completion space unit).1
        (node.completion space unit).2).countDown (log ++ [node.completion space unit]) (counted + 1)
    have hsetting := node.performAll_sameSetting space (WorkUnit.writes [unit])
    rw [Node.completion_of_sameSetting hsetting, ← Node.performAll_append, ← WorkUnit.writes_append,
      List.append_assoc, List.append_assoc, Nat.add_assoc, Nat.add_comm 1] at hrest
    have hcarryOut := @Step.carryOut space node unit order done ⟨tracker, 0, 0, log, counted⟩
    rw [Node.carryOut_eq] at hcarryOut
    have hrecord := @Step.complete space (node.performAll space (WorkUnit.writes [unit])) order
      (done ++ [unit]) _ _ (.record tracker (node.completion space unit).1
        (node.completion space unit).2 0 0 log counted)
    have hcountDown := @Step.complete space (node.performAll space (WorkUnit.writes [unit])) order
      (done ++ [unit]) _ _ (.countDown (tracker.record (node.leader space) (node.completion space unit).1
        (node.completion space unit).2) (node.completion space unit) 0 0
        (log ++ [node.completion space unit]) counted)
    rw [hsetting.leader] at hrecord
    exact ⟨after, .head hcarryOut (.head hrecord (.head hcountDown hrest))⟩

end Flight

namespace Node

/-- What a request with these units can come to: the node behind it when its response is given, and
the response. -/
def Dispatches (node : Node) (space : SpaceId) (units : List WorkUnit)
    (result : Node × Response) : Prop :=
  ∃ s failed, ReflTransGen (Flight.Step space) (.start node units) s ∧
    s.fanIn.tracker.finished = [failed] ∧ result = (s.node, { failed })

variable {node : Node} {space : SpaceId} {units : List WorkUnit} {result : Node × Response}

/-- To carry units out in order is one of the ways. -/
theorem dispatches_runUnits (node : Node) (space : SpaceId) (units : List WorkUnit) :
    node.Dispatches space units (node.runUnits space units) := by
  obtain ⟨order, horder, hcompletions, hwrites⟩ : ∃ order : List WorkUnit,
      order.Perm units ∧ node.completions space units = order.map (node.completion space) ∧
        WorkUnit.writes order = WorkUnit.writes units := by
    refine ⟨_, WorkUnit.perm_reports_writes units, completions_eq .., ?_⟩
    rw [WorkUnit.writes_append, WorkUnit.writes_map_report, WorkUnit.writes_map_write,
      List.nil_append]
  obtain ⟨after, hrun⟩ := Flight.run_of_list node space order [] (.start units.length) [] 0
  rw [Multiset.coe_eq_coe.2 horder, hwrites, ← hcompletions, List.nil_append,
    List.nil_append] at hrun
  have hfollows := (Flight.follows_start node space units).run hrun
  obtain ⟨-, hafter⟩ := hfollows.coming.finished rfl rfl
  refine ⟨_, collectFailures (node.leader space) (node.completions space units), hrun, ?_, ?_⟩
  · exact congrArg Tracker.finished hafter
  · rw [runUnits_eq]

/-- When units may change places, every way to carry them out leaves behind what they leave in
order, and lists the same failures. -/
theorem Dispatches.eq_runUnits (h : node.Dispatches space units result)
    (hunits : WorkUnit.Independent units) :
    result.1 = (node.runUnits space units).1 ∧
      result.2.failed.Perm (node.runUnits space units).2.failed := by
  obtain ⟨s, failed, hrun, hfinished, rfl⟩ := h
  obtain ⟨hdone, hcarried, hlog, rfl⟩ :=
    ((Flight.follows_start node space units).run hrun).finished hfinished
  rw [runUnits_eq]
  constructor
  · refine hcarried.trans (performAll_perm node space (hdone.filterMap _) ?_)
    rintro ⟨part, w⟩ hw ⟨other, w'⟩ hw' heq
    obtain rfl : part = other := heq
    exact hunits.commute part w w' (WorkUnit.mem_writes.1 hw) (WorkUnit.mem_writes.1 hw')
  · have hcompletions : (node.completions space units).Perm (units.map (node.completion space)) := by
      rw [completions_eq]
      exact (WorkUnit.perm_reports_writes units).map _
    refine Tracker.collectFailures_perm (hlog.trans hcompletions.symm) fun a ha b hb hpart => ?_
    obtain ⟨unit, hunit, rfl⟩ := List.mem_map.1 (hcompletions.mem_iff.1 ha)
    obtain ⟨other, hother, rfl⟩ := List.mem_map.1 (hcompletions.mem_iff.1 hb)
    cases unit with
    | report part code =>
      have hsame : other.part = part := by
        cases other <;> exact hpart.symm
      rw [hunits.alone part code hunit other hother hsame]
    | write part w =>
      cases other with
      | report part' code =>
        have hsame : (WorkUnit.write part w).part = part' := hpart
        rw [hunits.alone part' code hother _ hunit hsame]
      | write part' w' =>
        obtain rfl : part = part' := hpart
        rfl

end Node

section UnitsOf

variable {α : Type} {layout : Except ErrorCode SpaceLayout} {parts : PartMap α}
  {prepare : SpaceLayout → PartId → α → Except ErrorCode (List WorkUnit)}

/-- Units prepared for each partition may change places when the writes of each partition may. -/
theorem independent_unitsOf (hprepare : PreparesWrites prepare)
    (hcommute : ∀ layout part items (writes : List Write),
      prepare layout part items = .ok (writes.map (.write part)) →
        ∀ w ∈ writes, ∀ w' ∈ writes, w.Commute w') :
    WorkUnit.Independent (unitsOf layout parts prepare) where
  commute part w w' hw hw' := by
    obtain ⟨items, writes, hitems, hplan, hmem⟩ := (write_mem_unitsOf hprepare).1 hw
    obtain ⟨items', writes', hitems', hplan', hmem'⟩ := (write_mem_unitsOf hprepare).1 hw'
    obtain rfl := Option.some.inj (hitems.symm.trans hitems')
    have hwrites := Except.ok.inj (hplan.symm.trans hplan')
    have hunit : WorkUnit.write part w' ∈ writes.map (.write part) :=
      hwrites ▸ List.mem_map_of_mem hmem'
    obtain ⟨found, hfound, heq⟩ := List.mem_map.1 hunit
    obtain rfl := (WorkUnit.write.inj heq).2
    obtain ⟨layout', -, hprepared⟩ := bind_eq_ok.1 hplan
    exact hcommute layout' part items writes hprepared w hmem found hfound
  alone part code hreport unit hunit hpart := by
    obtain ⟨items, hitems, hplan⟩ := (report_mem_unitsOf hprepare).1 hreport
    cases unit with
    | report part' code' =>
      obtain rfl : part' = part := hpart
      obtain ⟨items', hitems', hplan'⟩ := (report_mem_unitsOf hprepare).1 hunit
      obtain rfl := Option.some.inj (hitems.symm.trans hitems')
      rw [Except.error.inj (hplan.symm.trans hplan')]
    | write part' w =>
      obtain rfl : part' = part := hpart
      obtain ⟨items', writes, hitems', hplan', -⟩ := (write_mem_unitsOf hprepare).1 hunit
      obtain rfl := Option.some.inj (hitems.symm.trans hitems')
      cases hplan.symm.trans hplan'

end UnitsOf

end GraphStore
