import GraphStore.Encoding.Bytes
import Std.Data.ExtTreeMap

/-!
# Content of a partition

A partition maps keys to values, in byte order of the keys. Reading by stem walks from the first
key not below the stem and stops at the first that does not begin with it.
-/

namespace GraphStore

/-- A key with its value. -/
abbrev Entry := Bytes × Bytes

/-- The content of a partition. -/
abbrev Partition := Std.ExtTreeMap Bytes Bytes

namespace Partition

/-- Puts entries one after another. -/
def put (p : Partition) (batch : List Entry) : Partition :=
  batch.foldl (fun p (key, value) => p.insert key value) p

/-- Removes keys; absent ones do no harm. -/
def remove (p : Partition) (keys : List Bytes) : Partition :=
  keys.foldl (fun p key => p.erase key) p

/-- Whether a key lies at or above `start` and below `stop`. -/
def within (start stop key : Bytes) : Bool :=
  (compare start key).isLE && (compare key stop).isLT

/-- Removes the keys at or above `start` and below `stop`. -/
def removeRange (p : Partition) (start stop : Bytes) : Partition :=
  p.filter fun key _ => !within start stop key

/-- The entries at or above `start` and below `stop`, in key order. -/
def range (p : Partition) (start stop : Bytes) : List Entry :=
  p.toList.filter fun (key, _) => within start stop key

/-- The entries whose keys begin with `stem`, in key order. -/
def scan (p : Partition) (stem : Bytes) : List Entry :=
  (p.toList.dropWhile fun (key, _) => (compare key stem).isLT).takeWhile
    fun (key, _) => stem.isPrefixOf key

end Partition

end GraphStore
