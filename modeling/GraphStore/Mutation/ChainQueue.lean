import GraphStore.Mutation.Chain

/-!
# Writing chains with a bound

The chains of a request are written side by side, at most `limit` of them at a time: whenever a
write completes, waiting chains take the free places in order. Which of the writes under way
completes next is up to a schedule, a list of positions among them; where the list ends, the
oldest one completes.
-/

namespace GraphStore

/-- Chain writes of one request. -/
structure ChainQueue where
  /-- Chains not yet handed to the writer. -/
  waiting : List ChainBatch
  /-- Chains under way, the oldest first. -/
  inflight : List ChainBatch := []
  /-- Chains that have completed, with their codes, the last one first. -/
  results : List (ChainId × ErrorCode) := []
  deriving DecidableEq, Repr, Inhabited

namespace ChainQueue

/-- Hands waiting chains over while places are free. -/
def refill (limit : Nat) (q : ChainQueue) : ChainQueue :=
  let free := limit - q.inflight.length
  { q with
    waiting := q.waiting.drop free
    inflight := q.inflight ++ q.waiting.take free }

/-- A queue with the first chains under way. -/
def start (limit : Nat) (chains : List ChainBatch) : ChainQueue :=
  refill limit { waiting := chains }

/-- The position that a choice stands for, among `count` writes. -/
def position (choice count : Nat) : Nat := choice % count

/-- Completes the chain at a position with a code, and refills. -/
def complete (limit : Nat) (q : ChainQueue) (i : Nat) (chain : ChainId) (code : ErrorCode) :
    ChainQueue :=
  refill limit {
    q with
    inflight := q.inflight.eraseIdx i
    results := (chain, code) :: q.results }

/-- Lets every write complete. Each takes one step, so the number of chains is fuel enough. -/
def run (limit : Nat) (write : σ → ChainBatch → σ × ErrorCode) :
    (fuel : Nat) → (schedule : List Nat) → σ → ChainQueue → σ × ChainQueue
  | 0, _, state, q => (state, q)
  | fuel + 1, schedule, state, q =>
    let i := position (schedule.headD 0) q.inflight.length
    match q.inflight[i]? with
    | none => (state, q)
    | some next =>
      let (state, code) := write state next
      run limit write fuel schedule.tail state (q.complete limit i next.chain code)

end ChainQueue

/-- Writes chains, at most `bound` of them at a time (one if that is zero), and answers their codes
in the order in which they completed. -/
def writeChains (bound : Nat) (schedule : List Nat) (write : σ → ChainBatch → σ × ErrorCode)
    (state : σ) (chains : List ChainBatch) : σ × List (ChainId × ErrorCode) :=
  let limit := min (max 1 bound) chains.length
  let (state, q) := ChainQueue.run limit write chains.length schedule state (.start limit chains)
  (state, q.results.reverse)

end GraphStore
