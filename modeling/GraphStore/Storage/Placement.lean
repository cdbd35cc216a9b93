import GraphStore.Encoding.Utf8
import GraphStore.Schema.Basic

/-!
# Placement of vertices

A placement says which partition owns a vertex. The usual one spreads ids over partitions
`1, 2, ..., count` by a hash of their bytes.
-/

namespace GraphStore

/-- Why a vertex has no partition. -/
inductive PlacementFault where
  | noPartitions (space : SpaceId)
  | unplaced (vid : VertexId)
  deriving DecidableEq, Repr, Inhabited

/-- The fault in words. -/
def PlacementFault.message : PlacementFault → String
  | noPartitions space => s!"space {space.toInt} has no partitions"
  | unplaced vid => s!"no placement for {vid}"

/-- Which partition owns a vertex. -/
structure Placement where
  locate : SpaceId → VertexId → Except PlacementFault PartId

namespace Placement

/-- Mixes one byte into a 64-bit state. -/
def mix (state : UInt64) (byte : UInt8) : UInt64 :=
  let state := (state ^^^ byte.toUInt64) * 0xBF58476D1CE4E5B9
  let state := (state ^^^ (state >>> 27)) * 0x94D049BB133111EB
  state ^^^ (state >>> 31)

/-- The hash of a byte string. -/
def hash (bytes : Bytes) : UInt64 := bytes.foldl mix 0x9E3779B97F4A7C15

/-- The partition of a vertex among `count` of them. -/
def bucket (count : UInt32) (vid : VertexId) : PartId :=
  (hash (Utf8.ofString vid) % count.toUInt64).toUInt32.toInt32 + 1

/-- Spreads vertices over `count` partitions by the hash of their ids. -/
def hashed (count : UInt32) : Placement where
  locate space vid :=
    if count = 0 then .error (.noPartitions space) else .ok (bucket count vid)

/-- A fixed table; vertices outside it have no partition. -/
def table (entries : List (VertexId × PartId)) : Placement where
  locate _ vid :=
    match entries.lookup vid with
    | some part => .ok part
    | none => .error (.unplaced vid)

end Placement

end GraphStore
