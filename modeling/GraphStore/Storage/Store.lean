import GraphStore.Request.Basic
import GraphStore.Storage.Partition

/-!
# Store of partitions

A store holds the partitions of all spaces, the leader known for each, and failures set for some:
every write to such a partition is answered with the failure's code and changes nothing. A write
is applied as a whole or not at all. Writes are counted, whatever their outcome.
-/

namespace GraphStore

/-- A partition of a space. -/
structure Address where
  space : SpaceId
  part : PartId
  deriving DecidableEq, Repr, Inhabited

namespace Address

instance : Ord Address where
  compare a b := (compare a.space b.space).then (compare a.part b.part)

/-- Addresses are ordered by space, then by partition. -/
theorem compare_def (a b : Address) :
    compare a b = (compare a.space b.space).then (compare a.part b.part) := rfl

instance : Std.TransOrd Address where
  eq_swap {a b} := by
    rw [compare_def, compare_def, Ordering.swap_then, ← Std.OrientedCmp.eq_swap,
      ← Std.OrientedCmp.eq_swap]
  isLE_trans {a b c} h₁ h₂ := by
    simp only [compare_def, Ordering.isLE_then_iff_and] at *
    refine ⟨Std.TransCmp.isLE_trans h₁.1 h₂.1, ?_⟩
    rcases h₁.2 with h | h
    · exact .inl (Std.TransCmp.lt_of_lt_of_isLE h h₂.1)
    · rcases h₂.2 with g | g
      · exact .inl (Std.TransCmp.lt_of_isLE_of_lt h₁.1 g)
      · exact .inr (Std.TransCmp.isLE_trans h g)

instance : Std.LawfulEqOrd Address where
  eq_of_compare {a b} h := by
    rw [compare_def, Ordering.then_eq_eq] at h
    obtain ⟨space, part⟩ := a
    obtain ⟨space', part'⟩ := b
    simp only [Address.mk.injEq]
    exact ⟨Std.LawfulEqCmp.eq_of_compare h.1, Std.LawfulEqCmp.eq_of_compare h.2⟩

end Address

/-- The partitions of a storage node. -/
structure Store where
  parts : Std.ExtTreeMap Address Partition := ∅
  leaders : Std.ExtTreeMap Address Host := ∅
  failures : Std.ExtTreeMap Address EngineCode := ∅
  putCalls : Nat := 0
  removeCalls : Nat := 0
  deriving Inhabited

namespace Store

/-- Adds a partition with its leader. A partition that is there keeps its content. -/
def addPart (s : Store) (addr : Address) (leader : Host) : Store :=
  { s with
    parts := s.parts.insert addr ((s.parts[addr]?).getD ∅)
    leaders := s.leaders.insert addr leader }

/-- Lets every later write to the partition answer this code. -/
def failPart (s : Store) (addr : Address) (code : EngineCode) : Store :=
  { s with failures := s.failures.insert addr code }

/-- Ends the failure of a partition. -/
def healPart (s : Store) (addr : Address) : Store :=
  { s with failures := s.failures.erase addr }

/-- Forgets the leader of a partition. -/
def clearLeader (s : Store) (addr : Address) : Store :=
  { s with leaders := s.leaders.erase addr }

/-- Number of keys in a partition. -/
def partSize (s : Store) (addr : Address) : Nat :=
  match s.parts[addr]? with
  | some p => p.size
  | none => 0

/-- The leader of a partition. -/
def leader (s : Store) (addr : Address) : Except EngineCode Host :=
  match s.leaders[addr]? with
  | some host => .ok host
  | none => .error .partNotFound

/-- Changes the content of a partition, unless a failure is set for it or it is not there. -/
def write (s : Store) (addr : Address) (change : Partition → Partition) : Store × EngineCode :=
  match s.failures[addr]? with
  | some code => (s, code)
  | none =>
    match s.parts[addr]? with
    | none => (s, .partNotFound)
    | some p => ({ s with parts := s.parts.insert addr (change p) }, .succeeded)

/-- Puts entries. -/
def multiPut (s : Store) (addr : Address) (batch : List Entry) : Store × EngineCode :=
  { s with putCalls := s.putCalls + 1 }.write addr (·.put batch)

/-- Removes keys. -/
def multiRemove (s : Store) (addr : Address) (keys : List Bytes) : Store × EngineCode :=
  { s with removeCalls := s.removeCalls + 1 }.write addr (·.remove keys)

/-- Removes the keys at or above `start` and below `stop`. -/
def removeRange (s : Store) (addr : Address) (start stop : Bytes) : Store × EngineCode :=
  { s with removeCalls := s.removeCalls + 1 }.write addr (·.removeRange start stop)

/-- Removes keys, then puts entries, as one write. -/
def atomicWrite (s : Store) (addr : Address) (removes : List Bytes) (puts : List Entry) :
    Store × EngineCode :=
  { s with putCalls := s.putCalls + 1 }.write addr fun p => (p.remove removes).put puts

/-- Reads from a partition that is there. -/
def read (s : Store) (addr : Address) (f : Partition → α) : Except EngineCode α :=
  match s.parts[addr]? with
  | some p => .ok (f p)
  | none => .error .partNotFound

/-- The value under a key. -/
def get (s : Store) (addr : Address) (key : Bytes) : Except EngineCode (Option Bytes) :=
  s.read addr (·[key]?)

/-- The entries whose keys begin with `stem`. -/
def scan (s : Store) (addr : Address) (stem : Bytes) : Except EngineCode (List Entry) :=
  s.read addr (·.scan stem)

/-- The entries at or above `start` and below `stop`. An empty range is answered without looking
for the partition. -/
def range (s : Store) (addr : Address) (start stop : Bytes) : Except EngineCode (List Entry) :=
  if (compare start stop).isGE then .ok [] else s.read addr (·.range start stop)

end Store

end GraphStore
