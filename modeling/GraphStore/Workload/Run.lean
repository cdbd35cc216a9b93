import GraphStore.Mutation.Vertices
import GraphStore.Mutation.ChainedEdges
import GraphStore.Query.Lookup
import GraphStore.Workload.Requests
import GraphStore.Workload.Summary

/-!
# Running the workload

A run inserts the vertices and then the edges, in batches, and looks rows up. Requests are timed
by a stopwatch, which may be one that stands still: the run is then a function of its options.
-/

namespace GraphStore.Workload

/-- Carries out work and says how many microseconds it took. -/
structure Stopwatch (m : Type → Type) where
  time : {α : Type} → (Unit → α) → m (α × Nat)

/-- A stopwatch that stands still. -/
def Stopwatch.still : Stopwatch Id where
  time work := (work (), 0)

/-- Why a run cannot begin. -/
inductive RunFault where
  | noParts
  | noVertices
  | noBatch
  | narrowIds (vidLen vertices : Nat)
  | config (fault : Config.Fault)
  deriving DecidableEq, Repr, Inhabited

/-- The fault in words, followed by what lies behind it. -/
def RunFault.chain : RunFault → List String
  | noParts => ["--parts must be > 0"]
  | noVertices => ["--vertices must be > 0"]
  | noBatch => ["--batch must be > 0"]
  | narrowIds vidLen vertices => [s!"--vid-len {vidLen} is too small for {vertices} vertices"]
  | config fault => "load processor config" :: fault.chain

/-- A cause in a report, its later lines indented like the first. -/
def causeLines (number : Option Nat) (cause : String) : String :=
  let first := match number with
    | some n =>
      let digits := toString n
      String.ofList (List.replicate (5 - digits.length) ' ') ++ digits ++ ": "
    | none => "    "
  let indent := match number with
    | some _ => "       "
    | none => "    "
  first ++ String.intercalate ("\n" ++ indent) (cause.splitOn "\n")

/-- A report of a fault and its causes, numbered when there are several. -/
def report : List String → String
  | [] => "Error"
  | [message] => s!"Error: {message}"
  | [message, cause] => s!"Error: {message}\n\nCaused by:\n" ++ causeLines none cause
  | message :: causes =>
    s!"Error: {message}\n\nCaused by:\n" ++
      String.intercalate "\n" (causes.zipIdx.map fun (cause, n) => causeLines (some n) cause)

/-- The settings of a run: those of the variables, with the options that stand in for them. -/
def settings (options : Options) (setting? : String → Option String) :
    Except RunFault Config := do
  if options.parts = 0 then throw .noParts
  if options.vertices = 0 then throw .noVertices
  if options.batch = 0 then throw .noBatch
  if options.vidLen < (vertexId options.vertices).length then
    throw (.narrowIds options.vidLen options.vertices)
  let config ← (Config.ofVariables setting?).mapError .config
  return { config with
    maxChainInflight := (options.maxChainInflight.map (max 1)).getD config.maxChainInflight
    vertexCacheCapacity := options.vertexCache.getD config.vertexCacheCapacity }

/-- A run under way. -/
structure Run where
  node : Node
  random : Random
  phases : Phases := ∅

namespace Run

/-- A run before its first request. -/
def start (options : Options) (seed : UInt64) (config : Config) : Run :=
  let host : Host := { name := "127.0.0.1", portNumber := 9779 }
  let node := Node.new space (UInt32.ofNat options.parts) options.vidLen host config
  { node := { node with catalog := register node.catalog options.withIndex }
    random := .ofSeed seed
    phases := ((∅ : Phases).insert "add_vertices" {}).insert "add_edges_atomic" {} }

/-- Consecutive numbers below `total`, in batches of `size`. -/
def batches (total size : Nat) : List (List Nat) :=
  (List.range ((total + size - 1) / size)).map fun i =>
    (List.range (min size (total - i * size))).map (i * size + ·)

/-- Carries out a timed request of a phase. -/
def request [Monad m] (watch : Stopwatch m) (run : Run) (phase : String)
    (perform : Node → Node × Response) : m Run := do
  let ((node, response), micros) ← watch.time fun _ => perform run.node
  return { run with node, phases := run.phases.record phase response 0 micros }

/-- Inserts the vertices. -/
def loadVertices [Monad m] (watch : Stopwatch m) (options : Options) (run : Run) : m Run :=
  (batches options.vertices options.batch).foldlM (fun run ids => do
    let (req, random) := drawVertices (UInt32.ofNat options.parts) ids run.random
    request watch { run with random } "add_vertices" (·.addVertices req)) run

/-- Inserts the edges, which are ranked from one on. -/
def loadEdges [Monad m] (watch : Stopwatch m) (options : Options) (run : Run) : m Run :=
  (batches options.edges options.batch).foldlM (fun run numbers => do
    let (req, random) := drawEdges (UInt32.ofNat options.parts) options.vertices
      (numbers.map (· + 1)) run.random
    request watch { run with random } "add_edges_atomic" (·.addEdgesChained req)) run

/-- Carries out every lookup once. -/
def lookUp [Monad m] (watch : Stopwatch m) (options : Options) (run : Run) : m Run :=
  (lookups (UInt32.ofNat options.parts)).foldlM (fun run (phase, req) => do
    let ((node, response), micros) ← watch.time fun _ => run.node.lookup req
    let phases := run.phases.record phase response.result response.data.rows.length micros
    return { run with node, phases }) run

/-- Inserts everything. -/
def load [Monad m] (watch : Stopwatch m) (options : Options) (run : Run) : m Run := do
  let run ← loadVertices watch options run
  loadEdges watch options run

/-- What the run came to. -/
def summary (options : Options) (seed : UInt64) (config : Config) (run : Run) : Summary where
  options
  seed
  config
  phases := run.phases
  cache := run.node.cache

end Run

/-- The summary of a run that carries out every lookup once. -/
def summaryOf [Monad m] (watch : Stopwatch m) (options : Options) (seed : UInt64)
    (config : Config) : m Summary := do
  let run ← Run.load watch options (.start options seed config)
  let run ← if options.withIndex then run.lookUp watch options else pure run
  return run.summary options seed config

end GraphStore.Workload
