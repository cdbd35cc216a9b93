import GraphStore.Json.Writer
import GraphStore.Request.Basic
import GraphStore.Storage.Config
import GraphStore.Storage.VertexCache
import GraphStore.Workload.Options

/-!
# Summary of a workload

Every phase counts its requests, failed partitions, result rows and failure codes, and adds up
how long its requests took. The summary lists the phases by name, with the settings of the run.
-/

namespace GraphStore.Workload

/-- What the requests of one phase came to. -/
structure PhaseStats where
  requests : Nat := 0
  failedParts : Nat := 0
  rows : Nat := 0
  totalMicros : Nat := 0
  maxMicros : Nat := 0
  /-- Failed partitions by the message of their code. -/
  codes : Std.ExtTreeMap String Nat := ∅

/-- The phases by name. -/
abbrev Phases := Std.ExtTreeMap String PhaseStats

/-- Counts a response that brought some rows and took some time. -/
def PhaseStats.record (stats : PhaseStats) (response : Response) (rows micros : Nat) :
    PhaseStats where
  requests := stats.requests + 1
  failedParts := stats.failedParts + response.failed.length
  rows := stats.rows + rows
  totalMicros := stats.totalMicros + micros
  maxMicros := max stats.maxMicros micros
  codes := response.failed.foldl (fun codes result =>
    codes.insert result.code.message (codes.getD result.code.message 0 + 1)) stats.codes

/-- Counts a response in a phase. -/
def Phases.record (phases : Phases) (phase : String) (response : Response)
    (rows micros : Nat) : Phases :=
  phases.insert phase ((phases.getD phase {}).record response rows micros)

/-- What a run came to. -/
structure Summary where
  options : Options
  seed : UInt64
  config : Config
  phases : Phases
  cache : Option VertexCache

/-- The JSON form of a phase. -/
def PhaseStats.toJson (stats : PhaseStats) : Json :=
  .obj [("requests", .int stats.requests), ("failed_parts", .int stats.failedParts),
    ("rows", .int stats.rows), ("total_latency_us", .int stats.totalMicros),
    ("max_latency_us", .int stats.maxMicros),
    ("codes", .obj (stats.codes.toList.map fun (code, count) => (code, .int count)))]

/-- The JSON form of a summary. The cache is left out when there is none. -/
def Summary.toJson (s : Summary) : Json :=
  let settings : Json := .obj [("parts", .int s.options.parts),
    ("vertices", .int s.options.vertices), ("edges", .int s.options.edges),
    ("vid_len", .int s.options.vidLen), ("batch", .int s.options.batch),
    ("with_index", .bool s.options.withIndex), ("seed", .int s.seed.toNat),
    ("duration_ms", .int s.options.duration.millis),
    ("max_chain_inflight", .int s.config.maxChainInflight),
    ("lookup_max_rows", .int s.config.lookupMaxRows),
    ("vertex_cache_capacity", .int s.config.vertexCacheCapacity)]
  let phases : Json := .obj (s.phases.toList.map fun (name, stats) => (name, stats.toJson))
  let cache := s.cache.map fun cache =>
    ("vertex_cache", Json.obj [("hits", .int cache.hits), ("misses", .int cache.misses),
      ("len", .int cache.size)])
  .obj ([("meta", settings), ("phases", phases)] ++ cache.toList)

end GraphStore.Workload
