import GraphStore.Fanout.Tracker
import GraphStore.Storage.Node

/-!
# Requests under way

A session is a request being carried out on a node. Its units of work either report a code at
once or are writes, which are queued and carried out when the request waits for them. A write may
also be done at once without counting as a unit. The response lists the failures that the units
reported.
-/

namespace GraphStore

/-- A piece of a mutation, which reports one completion. -/
inductive WorkUnit where
  | report (part : PartId) (code : ErrorCode)
  | write (part : PartId) (write : Write)
  deriving DecidableEq, Repr, Inhabited

/-- A request under way. -/
structure Session where
  node : Node
  space : SpaceId
  tracker : Tracker
  queued : List (PartId × Write) := []

namespace Session

/-- A request that waits for `units` completions. -/
def start (node : Node) (space : SpaceId) (units : Nat) : Session where
  node
  space
  tracker := .start units

/-- A completion. -/
def report (s : Session) (part : PartId) (code : ErrorCode) : Session :=
  { s with tracker := s.tracker.complete (s.node.leader s.space) part code }

/-- Queues a write. -/
def enqueue (s : Session) (part : PartId) (write : Write) : Session :=
  { s with queued := s.queued ++ [(part, write)] }

/-- Takes on a unit of work. -/
def dispatch (s : Session) : WorkUnit → Session
  | .report part code => s.report part code
  | .write part write => s.enqueue part write

/-- Performs a write at once; its outcome is answered and reported nowhere. -/
def writeNow (s : Session) (part : PartId) (write : Write) : Session × EngineCode :=
  let (node, code) := s.node.perform s.space part write
  ({ s with node }, code)

/-- Performs a write and reports its outcome. -/
def perform (s : Session) (part : PartId) (write : Write) : Session :=
  let (s, code) := s.writeNow part write
  s.report part code.toErrorCode

/-- Performs writes in the order of a schedule. -/
def performAll (s : Session) (schedule : List (PartId × Write)) : Session :=
  schedule.foldl (fun s (part, write) => s.perform part write) s

/-- Performs the queued writes in order. -/
def drain (s : Session) : Session :=
  { s.performAll s.queued with queued := [] }

/-- The node after the request and the response to it. -/
def finish (s : Session) : Node × Response :=
  let s := s.drain
  (s.node, { failed := s.tracker.outcome })

end Session

/-- Carries out units of work as one request. -/
def Node.runUnits (node : Node) (space : SpaceId) (units : List WorkUnit) : Node × Response :=
  (units.foldl Session.dispatch (.start node space units.length)).finish

/-- A request that reports one code for each of some partitions. -/
def Node.reportParts (node : Node) (space : SpaceId) (reports : List (PartId × ErrorCode)) :
    Node × Response :=
  node.runUnits space (reports.map fun (part, code) => .report part code)

end GraphStore
