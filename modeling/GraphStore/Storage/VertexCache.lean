import GraphStore.Encoding.Bytes
import GraphStore.Schema.Basic

/-!
# Cache of vertex rows

Encoded tag rows by space, vertex and tag. Reading or writing a row makes it the most recent; a
full cache forgets the least recent one. Reads are counted as hits and misses.
-/

namespace GraphStore

/-- What a cached row is found by. -/
structure CacheKey where
  space : SpaceId
  vid : VertexId
  tag : TagId
  deriving DecidableEq, Repr, Inhabited

/-- A cache of rows, the most recent first. -/
structure VertexCache where
  capacity : Nat
  rows : List (CacheKey × Bytes) := []
  hits : Nat := 0
  misses : Nat := 0
  deriving DecidableEq, Repr, Inhabited

namespace VertexCache

/-- An empty cache; none for capacity zero. -/
def ofCapacity? (capacity : Nat) : Option VertexCache :=
  if capacity = 0 then none else some { capacity }

/-- Number of cached rows. -/
def size (cache : VertexCache) : Nat := cache.rows.length

/-- The cached row of a key. -/
def row? (cache : VertexCache) (key : CacheKey) : Option Bytes := cache.rows.lookup key

/-- Forgets the row of a key. -/
def evict (cache : VertexCache) (key : CacheKey) : VertexCache :=
  { cache with rows := cache.rows.filter (·.1 ≠ key) }

/-- Caches a row as the most recent one. -/
def insert (cache : VertexCache) (key : CacheKey) (row : Bytes) : VertexCache :=
  { cache with rows := ((key, row) :: (cache.evict key).rows).take cache.capacity }

/-- Reads a row, makes it the most recent one, and counts the hit or miss. -/
def get (cache : VertexCache) (key : CacheKey) : VertexCache × Option Bytes :=
  match cache.row? key with
  | some row =>
    ({ cache with rows := (key, row) :: (cache.evict key).rows, hits := cache.hits + 1 }, some row)
  | none => ({ cache with misses := cache.misses + 1 }, none)

/-- An evicted row is gone. -/
theorem row?_evict_self (cache : VertexCache) (key : CacheKey) :
    (cache.evict key).row? key = none := by
  simp only [row?, evict, List.lookup_eq_none_iff, List.mem_filter]
  intro p hp
  have := hp.2
  simp only [ne_eq, decide_not, Bool.not_eq_true', decide_eq_false_iff_not] at this
  simpa using fun h => this h.symm

end VertexCache

end GraphStore
