import GraphStore.Storage.Catalog
import GraphStore.Storage.Config
import GraphStore.Storage.Placement
import GraphStore.Storage.Store
import GraphStore.Storage.VertexCache

/-!
# Storage node

A node has a store, a catalog, a placement of vertices and perhaps a cache of vertex rows.
Requests read and write through the node: a partition can be down, and then every read and write
answers an unknown failure without reaching the store. Edges that touch two partitions go through
the node's chain writer, which sees the store itself.
-/

namespace GraphStore

/-- Two partitions written together: the one of an edge's source and the one of its
destination. -/
structure ChainId where
  source : PartId
  target : PartId
  deriving DecidableEq, Repr, Inhabited

/-- What a chain writer is given. -/
structure ChainCall where
  space : SpaceId
  vidLen : Nat
  chain : ChainId
  batch : List Entry
  deriving DecidableEq, Repr, Inhabited

/-- How a chain write ends: with an answer, or without one. -/
inductive ChainOutcome where
  | answered (code : ErrorCode)
  | lost
  deriving DecidableEq, Repr, Inhabited

/-- A write without an answer is reported as an unknown failure. -/
def ChainOutcome.code : ChainOutcome → ErrorCode
  | answered code => code
  | lost => .unknown

/-- Writes the batch of a chain. -/
structure ChainWriter where
  write : ChainCall → Store → Store × ChainOutcome

namespace ChainWriter

/-- Puts the batch into the source partition. -/
def toSource : ChainWriter where
  write call store :=
    let (store, code) := store.multiPut ⟨call.space, call.chain.source⟩ call.batch
    (store, .answered code.toErrorCode)

/-- Writes nothing. Chains in `lost` get no answer, those with an outcome get it, and all others
succeed. -/
def scripted (outcomes : List (ChainId × ErrorCode)) (lost : List ChainId) : ChainWriter where
  write call store :=
    if call.chain ∈ lost then (store, .lost)
    else (store, .answered ((outcomes.lookup call.chain).getD .succeeded))

end ChainWriter

/-- A storage node. -/
structure Node where
  store : Store := {}
  catalog : Catalog := {}
  placement : Placement
  chainWriter : ChainWriter := .toSource
  /-- What the chain writer was given, in order. -/
  chainCalls : Array ChainCall := #[]
  cache : Option VertexCache := none
  config : Config := {}
  /-- Partitions that cannot be read or written. -/
  down : List PartId := []

/-- A write to one partition. -/
inductive Write where
  | put (batch : List Entry)
  | remove (keys : List Bytes)
  | removeRange (start stop : Bytes)
  | replace (removes : List Bytes) (puts : List Entry)
  deriving DecidableEq, Repr, Inhabited

namespace Node

/-- A node with partitions `1, ..., parts` of one space, all led by `leader`. -/
def new (space : SpaceId) (parts : UInt32) (vidLen : Nat) (leader : Host) (config : Config) :
    Node where
  store := (List.range parts.toNat).foldl
    (fun store i => store.addPart ⟨space, Int32.ofNat (i + 1)⟩ leader) {}
  catalog := Catalog.addSpace {} space vidLen
  placement := .hashed parts
  cache := VertexCache.ofCapacity? config.vertexCacheCapacity
  config

/-- Performs a write. -/
def perform (node : Node) (space : SpaceId) (part : PartId) (write : Write) :
    Node × EngineCode :=
  if part ∈ node.down then (node, .unknown)
  else
    let addr : Address := ⟨space, part⟩
    let (store, code) :=
      match write with
      | .put batch => node.store.multiPut addr batch
      | .remove keys => node.store.multiRemove addr keys
      | .removeRange start stop => node.store.removeRange addr start stop
      | .replace removes puts => node.store.atomicWrite addr removes puts
    ({ node with store }, code)

/-- A read of a partition that is not down. -/
def reading (node : Node) (part : PartId) (result : Except EngineCode α) :
    Except EngineCode α :=
  if part ∈ node.down then .error .unknown else result

/-- The value under a key. -/
def get (node : Node) (space : SpaceId) (part : PartId) (key : Bytes) :
    Except EngineCode (Option Bytes) :=
  node.reading part (node.store.get ⟨space, part⟩ key)

/-- The entries whose keys begin with `stem`. -/
def scan (node : Node) (space : SpaceId) (part : PartId) (stem : Bytes) :
    Except EngineCode (List Entry) :=
  node.reading part (node.store.scan ⟨space, part⟩ stem)

/-- The entries at or above `start` and below `stop`. -/
def range (node : Node) (space : SpaceId) (part : PartId) (start stop : Bytes) :
    Except EngineCode (List Entry) :=
  node.reading part (node.store.range ⟨space, part⟩ start stop)

/-- The leader of a partition, known also when the partition is down. -/
def leader (node : Node) (space : SpaceId) (part : PartId) : Except EngineCode Host :=
  node.store.leader ⟨space, part⟩

/-- Forgets cached rows. -/
def evict (node : Node) (keys : List CacheKey) : Node :=
  { node with cache := node.cache.map fun cache => keys.foldl VertexCache.evict cache }

/-- Hands a batch to the chain writer. -/
def writeChain (node : Node) (call : ChainCall) : Node × ChainOutcome :=
  let (store, outcome) := node.chainWriter.write call node.store
  ({ node with store, chainCalls := node.chainCalls.push call }, outcome)

end Node

end GraphStore
