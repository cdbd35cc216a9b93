import GraphStore.Proofs.Fanout.Tracker
import Mathlib.Data.List.Induction
import Mathlib.Data.Multiset.AddSub
import Mathlib.Logic.Relation

/-!
# Completions side by side

A completion takes two steps: it records its failure, and later it counts down. The units of a
request run side by side, so between the two steps of one completion others may take theirs.
However they do, the request is finished once, by the completion that counts down last. By then all
of them have recorded, so what is handed over are the failures of all completions, for each
partition the one that was recorded first.
-/

namespace GraphStore

open Relation (ReflTransGen)

variable {leader : PartId → Except EngineCode Host}

namespace Tracker

/-- A completion records its failure, and counts down next. -/
theorem complete_eq (t : Tracker) (part : PartId) (code : ErrorCode) :
    t.complete leader part code = (t.record leader part code).countDown := rfl

/-- A step of some completion, expected or not. -/
inductive Step (leader : PartId → Except EngineCode Host) (t : Tracker) : Tracker → Prop where
  | record (part : PartId) (code : ErrorCode) : Step leader t (t.record leader part code)
  | countDown : Step leader t t.countDown

/-- What the entry of a partition tells of a failure: after a change of leader the leader to turn
to, or why it is not known, and else the code itself. -/
inductive Tells (leader : PartId → Except EngineCode Host) :
    PartId → ErrorCode → PartResult → Prop where
  | moved {part : PartId} {host : Host} (hleader : leader part = .ok host) :
      Tells leader part .leaderChanged { part, code := .leaderChanged, leader := some host }
  | lost {part : PartId} {code : EngineCode} (hleader : leader part = .error code) :
      Tells leader part .leaderChanged { part, code := code.toErrorCode }
  | plain {part : PartId} {code : ErrorCode} (hfailed : code ≠ .succeeded)
      (hstays : code ≠ .leaderChanged) : Tells leader part code { part, code }

/-- The failures that completions recorded in this order leave: an entry for each partition that
failed, which tells of its first failure. -/
structure FirstFailures (leader : PartId → Except EngineCode Host)
    (log : List (PartId × ErrorCode)) (entries : List PartResult) : Prop where
  nodup : (entries.map (·.part)).Nodup
  parts : ∀ part, part ∈ entries.map (·.part) ↔ ∃ code, (part, code) ∈ log ∧ code ≠ .succeeded
  first : ∀ entry ∈ entries, ∃ before code after, log = before ++ (entry.part, code) :: after ∧
    Tells leader entry.part code entry ∧
      ∀ earlier ∈ before, earlier.1 = entry.part → earlier.2 = .succeeded

/-- An entry tells of the failure it is made for. -/
theorem tells_of_result {part : PartId} {code : ErrorCode} {entry : PartResult}
    (h : result? leader part code = some entry) : Tells leader part code entry := by
  unfold result? at h
  split at h
  · cases h
  · split at h
    · next hleader =>
      cases h
      exact .moved hleader
    · next hleader =>
      cases h
      exact .lost hleader
  · next hfailed hstays =>
    cases h
    exact .plain hfailed hstays

/-- One more completion adds its failure. -/
theorem collectFailures_concat (log : List (PartId × ErrorCode))
    (completion : PartId × ErrorCode) : collectFailures leader (log ++ [completion]) =
      addFailure leader (collectFailures leader log) completion := by
  rw [collectFailures_eq, collectFailures_eq, List.foldl_append]
  rfl

/-- What is collected are the first failures. -/
theorem firstFailures_collectFailures (log : List (PartId × ErrorCode)) :
    FirstFailures leader log (collectFailures leader log) where
  nodup := nodup_collectFailures log
  parts _ := mem_collectFailures
  first := by
    -- A completion can only add its own entry, so the induction is on the last one.
    induction log using List.reverseRecOn with
    | nil => nofun
    | append_singleton log completion ih =>
      obtain ⟨part, code⟩ := completion
      have hkept (entry : PartResult) (hentry : entry ∈ collectFailures leader log) :
          ∃ before code' after, log ++ [(part, code)] = before ++ (entry.part, code') :: after ∧
            Tells leader entry.part code' entry ∧
              ∀ earlier ∈ before, earlier.1 = entry.part → earlier.2 = .succeeded := by
        obtain ⟨before, code', after, hlog, htells, hfirst⟩ := ih entry hentry
        refine ⟨before, code', after ++ [(part, code)], ?_, htells, hfirst⟩
        rw [hlog, List.append_assoc, List.cons_append]
      intro entry hentry
      rw [collectFailures_concat, addFailure] at hentry
      split at hentry
      · exact hkept entry hentry
      · next added hadded =>
        split at hentry
        · exact hkept entry hentry
        · next hnone =>
          rcases List.mem_append.1 hentry with hold | hnew
          · exact hkept entry hold
          · obtain rfl := List.mem_singleton.1 hnew
            have hpart : entry.part = part := part_of_result hadded
            refine ⟨log, code, [], by rw [hpart], hpart ▸ tells_of_result hadded, ?_⟩
            intro earlier hearlier heq
            by_contra hfailed
            have hlisted : part ∈ (collectFailures leader log).map (·.part) :=
              mem_collectFailures.2 ⟨earlier.2, by rwa [← hpart, ← heq], hfailed⟩
            obtain ⟨result, hresult, hsame⟩ := List.mem_map.1 hlisted
            exact hnone (List.any_eq_true.2 ⟨result, hresult, decide_eq_true hsame⟩)

/-- A tracker with these failures that waits for some more completions. When none is left it has
handed the failures over. -/
def expecting (results : List PartResult) : Nat → Tracker
  | 0 => { pending := 0, armed := false, finished := [results] }
  | pending + 1 => { pending := pending + 1, results }

@[simp] theorem pending_expecting (results : List PartResult) (pending : Nat) :
    (expecting results pending).pending = pending := by
  cases pending <;> rfl

/-- A tracker that is still waiting has handed nothing over. -/
theorem finished_expecting (results : List PartResult) {pending : Nat} (h : 0 < pending) :
    (expecting results pending).finished = [] := by
  cases pending with
  | zero => cases h
  | succ pending => rfl

/-- At first no failure is recorded. -/
theorem start_eq_expecting (count : Nat) : start count = expecting [] count := by
  cases count <;> rfl

/-- While completions are left, a failure is recorded. -/
theorem record_expecting {results : List PartResult} {pending : Nat} (h : 0 < pending)
    (part : PartId) (code : ErrorCode) : (expecting results pending).record leader part code =
      expecting (addFailure leader results (part, code)) pending := by
  cases pending with
  | zero => cases h
  | succ pending => exact record_eq _

/-- The last completion hands the failures over, each one before it leaves one less. -/
theorem countDown_expecting (results : List PartResult) (pending : Nat) :
    (expecting results (pending + 1)).countDown = expecting results pending := by
  cases pending <;> rfl

/-- After the last completion no step hands anything over or moves the counter. -/
theorem steps_of_expecting_zero {results : List PartResult} {later : Tracker}
    (h : ReflTransGen (Step leader) (expecting results 0) later) :
    later.finished = [results] ∧ later.pending = 0 := by
  induction h with
  | refl => exact ⟨rfl, rfl⟩
  | tail _ hstep ih =>
    cases hstep with
    | record part code =>
      rw [record_eq]
      exact ih
    | countDown =>
      rw [countDown, ih.2]
      exact ih

end Tracker

/-- The completions of a request on their way. -/
structure FanIn where
  tracker : Tracker
  /-- Completions that have taken no step. -/
  arriving : Multiset (PartId × ErrorCode)
  /-- Completions that have recorded and not counted down. -/
  between : Multiset (PartId × ErrorCode) := 0
  /-- The completions that have recorded, in order. -/
  log : List (PartId × ErrorCode) := []
  /-- How many completions have counted down. -/
  counted : Nat := 0

namespace FanIn

/-- A step of any of the completions. -/
inductive Step (leader : PartId → Except EngineCode Host) : FanIn → FanIn → Prop where
  | record (tracker : Tracker) (part : PartId) (code : ErrorCode)
      (arriving between : Multiset (PartId × ErrorCode)) (log : List (PartId × ErrorCode))
      (counted : Nat) :
      Step leader ⟨tracker, (part, code) ::ₘ arriving, between, log, counted⟩
        ⟨tracker.record leader part code, arriving, (part, code) ::ₘ between,
          log ++ [(part, code)], counted⟩
  | countDown (tracker : Tracker) (completion : PartId × ErrorCode)
      (arriving between : Multiset (PartId × ErrorCode)) (log : List (PartId × ErrorCode))
      (counted : Nat) :
      Step leader ⟨tracker, arriving, completion ::ₘ between, log, counted⟩
        ⟨tracker.countDown, arriving, between, log, counted + 1⟩

/-- A request that waits for these completions. -/
def start (completions : List (PartId × ErrorCode)) : FanIn where
  tracker := .start completions.length
  arriving := completions

/-- What holds however the completions take their steps: none is lost, and the tracker has the
failures of those that have recorded and waits for those that have not counted down. -/
structure Follows (leader : PartId → Except EngineCode Host)
    (completions : Multiset (PartId × ErrorCode)) (s : FanIn) : Prop where
  all : (s.log : Multiset (PartId × ErrorCode)) + s.arriving = completions
  counted : s.counted + s.between.card = s.log.length
  tracker : s.tracker =
    .expecting (collectFailures leader s.log) (s.arriving.card + s.between.card)

variable {completions : Multiset (PartId × ErrorCode)} {s next : FanIn}

/-- At first every completion has both steps before it. -/
theorem follows_start (leader : PartId → Except EngineCode Host)
    (completions : List (PartId × ErrorCode)) : (start completions).Follows leader completions where
  all := Multiset.zero_add _
  counted := rfl
  tracker := Tracker.start_eq_expecting _

/-- A step keeps what holds. -/
theorem Follows.step (h : s.Follows leader completions) (hstep : s.Step leader next) :
    next.Follows leader completions := by
  cases hstep with
  | record tracker part code arriving between log counted =>
    obtain ⟨hall, hcounted, htracker⟩ := h
    dsimp only at hall hcounted htracker
    refine ⟨?_, ?_, ?_⟩
    · rw [← hall, ← Multiset.coe_add, Multiset.coe_singleton, Multiset.add_assoc,
        Multiset.singleton_add]
    · simp only [Multiset.card_cons, List.length_append, List.length_singleton] at hcounted ⊢
      omega
    · have hpending : ((part, code) ::ₘ arriving).card + between.card =
          arriving.card + ((part, code) ::ₘ between).card := by
        rw [Multiset.card_cons, Multiset.card_cons]
        omega
      dsimp only
      rw [htracker, Tracker.collectFailures_concat, hpending]
      exact Tracker.record_expecting (by rw [Multiset.card_cons]; omega) part code
  | countDown tracker completion arriving between log counted =>
    obtain ⟨hall, hcounted, htracker⟩ := h
    dsimp only at hall hcounted htracker
    refine ⟨hall, ?_, ?_⟩
    · simp only [Multiset.card_cons] at hcounted ⊢
      omega
    · dsimp only
      rw [htracker, Multiset.card_cons, ← Nat.add_assoc]
      exact Tracker.countDown_expecting _ _

/-- What holds at first holds after every run. -/
theorem Follows.run (h : s.Follows leader completions) (hrun : ReflTransGen (Step leader) s next) :
    next.Follows leader completions := by
  induction hrun with
  | refl => exact h
  | tail _ hstep ih => exact ih.step hstep

/-- The completions that are left are those that have not counted down. -/
theorem Follows.counts (h : s.Follows leader completions) :
    s.counted + s.tracker.pending = completions.card := by
  have hall := congrArg Multiset.card h.all
  have hcounted := h.counted
  rw [Multiset.card_add, Multiset.coe_card] at hall
  rw [h.tracker, Tracker.pending_expecting]
  omega

/-- When every completion has taken both steps, the request is finished with the failures of all of
them. -/
theorem Follows.finished (h : s.Follows leader completions) (harriving : s.arriving = 0)
    (hbetween : s.between = 0) :
    (s.log : Multiset (PartId × ErrorCode)) = completions ∧
      s.tracker = .expecting (collectFailures leader s.log) 0 := by
  have hall := h.all
  have htracker := h.tracker
  rw [harriving, Multiset.add_zero] at hall
  rw [harriving, hbetween] at htracker
  exact ⟨hall, htracker⟩

/-- Completions that are carried out one after another are a run in which each of them counts down
right after it has recorded. -/
theorem run_completeAll (t : Tracker) (completions log : List (PartId × ErrorCode)) (counted : Nat) :
    ReflTransGen (Step leader) ⟨t, completions, 0, log, counted⟩
      ⟨t.completeAll leader completions, 0, 0, log ++ completions, counted + completions.length⟩ := by
  induction completions generalizing t log counted with
  | nil => simpa [Tracker.completeAll] using ReflTransGen.refl
  | cons completion completions ih =>
    obtain ⟨part, code⟩ := completion
    have hrest := ih (t.complete leader part code) (log ++ [(part, code)]) (counted + 1)
    rw [Tracker.complete_eq, List.append_assoc, Nat.add_assoc, Nat.add_comm 1] at hrest
    rw [← Multiset.cons_coe]
    exact .head (.record t part code completions 0 log counted)
      (.head (.countDown _ (part, code) completions 0 _ counted) hrest)

/-- A request whose completions are on their way is finished once and rightly: nothing is handed
over before the last completion counts down, and then the first failure of each partition that
failed; what comes later changes nothing. -/
structure FinishesOnce (leader : PartId → Except EngineCode Host)
    (completions : List (PartId × ErrorCode)) (s : FanIn) : Prop where
  counts : s.counted + s.tracker.pending = completions.length
  goesOn : s.counted < completions.length → ∃ next, s.Step leader next
  early : s.counted < completions.length → s.tracker.finished = []
  last : s.counted = completions.length → ∃ entries, s.tracker.finished = [entries] ∧
    s.log.Perm completions ∧ Tracker.FirstFailures leader s.log entries ∧
    (∀ part, part ∈ entries.map (·.part) ↔
      ∃ code, (part, code) ∈ completions ∧ code ≠ .succeeded) ∧
    ∀ later, ReflTransGen (Tracker.Step leader) s.tracker later →
      later.finished = [entries] ∧ later.pending = 0
  none : completions = [] → s.tracker.finished = [[]]

/-- A completion that has not counted down can take a step. -/
theorem exists_step (h : s.arriving ≠ 0 ∨ s.between ≠ 0) : ∃ next, s.Step leader next := by
  obtain ⟨tracker, arriving, between, log, counted⟩ := s
  rcases h with h | h
  · obtain ⟨⟨part, code⟩, hmem⟩ := Multiset.exists_mem_of_ne_zero h
    obtain ⟨rest, rfl⟩ := Multiset.exists_cons_of_mem hmem
    exact ⟨_, .record tracker part code rest between log counted⟩
  · obtain ⟨completion, hmem⟩ := Multiset.exists_mem_of_ne_zero h
    obtain ⟨rest, rfl⟩ := Multiset.exists_cons_of_mem hmem
    exact ⟨_, .countDown tracker completion arriving rest log counted⟩

/-- However the steps of its completions interleave, a request is finished once and rightly. -/
theorem finishesOnce_of_run {completions : List (PartId × ErrorCode)}
    (hrun : ReflTransGen (Step leader) (start completions) s) :
    s.FinishesOnce leader completions := by
  have hfollows := (follows_start leader completions).run hrun
  have hcounts : s.counted + s.tracker.pending = completions.length := hfollows.counts
  have hpending : s.tracker.pending = s.arriving.card + s.between.card := by
    rw [hfollows.tracker, Tracker.pending_expecting]
  have hlast (hcounted : s.counted = completions.length) :
      s.log.Perm completions ∧ s.tracker = .expecting (collectFailures leader s.log) 0 := by
    obtain ⟨hlog, htracker⟩ := hfollows.finished (Multiset.card_eq_zero.1 (by omega))
      (Multiset.card_eq_zero.1 (by omega))
    exact ⟨Multiset.coe_eq_coe.1 hlog, htracker⟩
  refine ⟨hcounts, fun hleft => ?_, fun hleft => ?_, fun hcounted => ?_, fun hnone => ?_⟩
  · apply exists_step
    by_contra hdone
    rw [not_or, not_not, not_not] at hdone
    rw [hdone.1, hdone.2, Multiset.card_zero] at hpending
    omega
  · rw [hfollows.tracker]
    exact Tracker.finished_expecting _ (by omega)
  · obtain ⟨hlog, htracker⟩ := hlast hcounted
    have hfirst : Tracker.FirstFailures leader s.log (collectFailures leader s.log) :=
      Tracker.firstFailures_collectFailures s.log
    refine ⟨collectFailures leader s.log, by rw [htracker]; rfl, hlog, hfirst, fun part => ?_,
      fun later hlater => Tracker.steps_of_expecting_zero (htracker ▸ hlater)⟩
    rw [hfirst.parts]
    simp only [hlog.mem_iff]
  · subst hnone
    obtain ⟨hlog, htracker⟩ := hlast (by rw [List.length_nil] at hcounts ⊢; omega)
    rw [htracker, List.perm_nil.1 hlog]
    rfl

/-- Two completions of one partition both fail, and the second of them records before the first and
counts down after it. -/
theorem finishesOnce_of_overtaken :
    let leader : PartId → Except EngineCode Host := fun _ => .error .partNotFound
    let completions : List (PartId × ErrorCode) := [(1, .unknown), (1, .leaderChanged)]
    let last : FanIn := {
      tracker := { pending := 0, armed := false, finished := [[{ part := 1, code := .partNotFound }]] }
      arriving := 0
      log := [(1, .leaderChanged), (1, .unknown)]
      counted := 2 }
    ReflTransGen (Step leader) (start completions) last ∧ last.FinishesOnce leader completions := by
  intro leader completions last
  have hrun : ReflTransGen (Step leader) (start completions) last := by
    have hswap : (completions : Multiset (PartId × ErrorCode)) =
        (1, .leaderChanged) ::ₘ (1, .unknown) ::ₘ 0 := Multiset.coe_eq_coe.2 (List.Perm.swap ..)
    rw [start, hswap]
    refine .head (.record _ _ _ _ _ _ _) (.head (.record _ _ _ _ _ _ _)
      (.head (.countDown _ _ _ _ _ _) (.head ?_ .refl)))
    exact .countDown _ _ _ _ _ _
  exact ⟨hrun, finishesOnce_of_run hrun⟩

end FanIn

end GraphStore
