import GraphStore.Text.Blank

/-!
# Settings of a storage node

Settings come from named variables, in a fixed order, so that the first bad one is reported. A
variable that is not set leaves its default.
-/

namespace GraphStore

/-- The settings of a node. -/
structure Config where
  /-- Chain writes of one request under way at a time. -/
  maxChainInflight : Nat := 64
  /-- Rows returned by one lookup; zero for no bound. -/
  lookupMaxRows : Nat := 100000
  /-- Whether every chain outcome is logged. -/
  traceChains : Bool := false
  /-- Rows kept in the vertex cache; zero for no cache. -/
  vertexCacheCapacity : Nat := 0
  deriving DecidableEq, Repr, Inhabited

namespace Config

/-- Why settings cannot be read. -/
inductive Fault where
  | number (raw : String) (why : Text.NumberFault)
  | flag (text : String)
  deriving DecidableEq, Repr, Inhabited

/-- The fault in words: a number is quoted as it was given, a flag without its blanks. -/
def Fault.message : Fault → String
  | number raw _ => s!"invalid usize value: {raw}"
  | flag text => s!"invalid bool value: {text}"

/-- The fault and what lies behind it, outermost first. -/
def Fault.chain (fault : Fault) : List String :=
  match fault with
  | number _ why => [fault.message, why.message]
  | flag _ => [fault.message]

/-- A number of at most 64 bits. -/
def readNumber (default : Nat) : Option String → Except Fault Nat
  | none => .ok default
  | some raw =>
    match Text.readUnsigned 0xffffffffffffffff (Text.trim raw.toList) with
    | .ok n => .ok n
    | .error why => .error (.number raw why)

/-- A flag in one of its spellings. -/
def readFlag (default : Bool) : Option String → Except Fault Bool
  | none => .ok default
  | some raw =>
    let text := String.ofList (Text.trim raw.toList)
    if text ∈ ["1", "true", "TRUE", "yes"] then .ok true
    else if text ∈ ["0", "false", "FALSE", "no"] then .ok false
    else .error (.flag text)

/-- The variables that hold settings, in the order in which they are read. -/
def variableNames : List String :=
  ["HOLO_GRAPH_MAX_CHAIN_INFLIGHT", "HOLO_GRAPH_LOOKUP_MAX_ROWS", "HOLO_GRAPH_TRACE_CHAINS",
    "HOLO_GRAPH_VERTEX_CACHE_CAPACITY"]

/-- Reads the settings. At least one chain write may be under way. -/
def ofVariables (setting? : String → Option String) : Except Fault Config := do
  let base : Config := {}
  let inflight ← readNumber base.maxChainInflight (setting? "HOLO_GRAPH_MAX_CHAIN_INFLIGHT")
  let maxRows ← readNumber base.lookupMaxRows (setting? "HOLO_GRAPH_LOOKUP_MAX_ROWS")
  let traceChains ← readFlag base.traceChains (setting? "HOLO_GRAPH_TRACE_CHAINS")
  let capacity ← readNumber base.vertexCacheCapacity
    (setting? "HOLO_GRAPH_VERTEX_CACHE_CAPACITY")
  return {
    maxChainInflight := max 1 inflight
    lookupMaxRows := maxRows
    traceChains
    vertexCacheCapacity := capacity }

end Config

end GraphStore
