import GraphStore.Request.Basic

/-!
# Collecting the completions of a request

A request is split into units of work, and each unit reports one completion. A completion first
records its failure, if it is one and the partition has none recorded yet, and then counts down;
the completion that reaches zero finishes the request with the failures recorded so far. Later
completions find nothing left to count.
-/

namespace GraphStore

/-- The completions of one request. -/
structure Tracker where
  /-- Completions still expected. -/
  pending : Nat
  /-- Failures recorded since the last finish, first one first. -/
  results : List PartResult := []
  /-- Whether the request is still to be finished. -/
  armed : Bool := true
  /-- The failures handed over at each finish. -/
  finished : List (List PartResult) := []
  deriving DecidableEq, Repr, Inhabited

namespace Tracker

/-- Hands the recorded failures over, if that has not happened yet. -/
def finish (t : Tracker) : Tracker :=
  { t with
    results := []
    armed := false
    finished := if t.armed then t.finished ++ [t.results] else t.finished }

/-- A tracker for `count` units. Without units the request is finished at once. -/
def start (count : Nat) : Tracker :=
  let t : Tracker := { pending := count }
  if count = 0 then t.finish else t

/-- What is listed for a completion; nothing for a success. A change of leader is reported with the
leader, or with the code of the failed leader look-up. -/
def result? (leader : PartId → Except EngineCode Host) (part : PartId) :
    ErrorCode → Option PartResult
  | .succeeded => none
  | .leaderChanged =>
    match leader part with
    | .ok host => some { part, code := .leaderChanged, leader := some host }
    | .error code => some { part, code := code.toErrorCode }
  | code => some { part, code }

/-- First step of a completion: the first failure of each partition is recorded. -/
def record (leader : PartId → Except EngineCode Host) (t : Tracker) (part : PartId)
    (code : ErrorCode) : Tracker :=
  match result? leader part code with
  | none => t
  | some entry =>
    if t.results.any (·.part = part) then t else { t with results := t.results ++ [entry] }

/-- Second step of a completion: it is counted, and the last one finishes the request. -/
def countDown (t : Tracker) : Tracker :=
  match t.pending with
  | 0 => t
  | 1 => { t with pending := 0 }.finish
  | pending + 1 => { t with pending }

/-- A completion. -/
def complete (leader : PartId → Except EngineCode Host) (t : Tracker) (part : PartId)
    (code : ErrorCode) : Tracker :=
  (t.record leader part code).countDown

/-- Completions one after another. -/
def completeAll (leader : PartId → Except EngineCode Host) (t : Tracker)
    (completions : List (PartId × ErrorCode)) : Tracker :=
  completions.foldl (fun t (part, code) => t.complete leader part code) t

/-- The failures that the request was finished with. -/
def outcome (t : Tracker) : List PartResult := t.finished.headD []

end Tracker

/-- The failures reported for a list of completions, each of an own unit. -/
def collectFailures (leader : PartId → Except EngineCode Host)
    (completions : List (PartId × ErrorCode)) : List PartResult :=
  ((Tracker.start completions.length).completeAll leader completions).outcome

end GraphStore
