import GraphStore.Proofs.Storage.Node
import Mathlib.Data.List.Perm.Basic

/-!
# Writes in another order

Writes to different partitions do not meet. Of two writes to one partition the order does not matter
when both remove, or when both put and agree on the keys that they share. Where this holds of any
two writes of a list, the node they leave behind is the same in every order.
-/

namespace GraphStore

namespace Partition

variable {batch other : List Entry}

/-- Whether two batches have equal values for the keys that they share. -/
def Agree (batch other : List Entry) : Prop :=
  ∀ entry ∈ batch, ∀ entry' ∈ other, entry.1 = entry'.1 → entry.2 = entry'.2

/-- Batches that agree are put in any order. -/
theorem put_comm (h : Agree batch other) (p : Partition) :
    (p.put batch).put other = (p.put other).put batch := by
  apply Std.ExtTreeMap.ext_getElem?
  intro key
  simp only [getElem?_put]
  cases hfirst : lastValue? batch key with
  | none => rw [Option.none_or, Option.none_or]
  | some value =>
    cases hsecond : lastValue? other key with
    | none => rfl
    | some value' =>
      have hvalue : value = value' :=
        h _ (mem_of_lastValue? hfirst) _ (mem_of_lastValue? hsecond) rfl
      rw [hvalue]

end Partition

namespace Write

variable {w other : Write}

/-- Whether two writes to one partition may change places. -/
def Commute (w other : Write) : Prop := ∀ p, other.apply (w.apply p) = w.apply (other.apply p)

/-- A write may change places with itself. -/
theorem Commute.refl (w : Write) : w.Commute w := fun _ => rfl

/-- Puts that agree may change places. -/
theorem Commute.put {batch batch' : List Entry} (h : Partition.Agree batch batch') :
    (put batch).Commute (.put batch') :=
  Partition.put_comm h

/-- A write that only takes keys away. -/
inductive Removal : Write → Prop where
  | remove (keys : List Bytes) : Removal (.remove keys)
  | removeRange (start stop : Bytes) : Removal (.removeRange start stop)

/-- A removal takes some keys away, and all others keep their values. -/
theorem Removal.getElem?_apply (h : w.Removal) :
    ∃ gone : Bytes → Prop, ∃ _ : DecidablePred gone, ∀ (p : Partition) (key : Bytes),
      (w.apply p)[key]? = if gone key then none else p[key]? := by
  cases h with
  | remove keys => exact ⟨(· ∈ keys), inferInstance, fun _ _ => Partition.getElem?_remove⟩
  | removeRange start stop =>
    exact ⟨(Partition.within start stop · = true), inferInstance,
      fun _ _ => Partition.getElem?_removeRange⟩

/-- Removals may change places. -/
theorem Removal.commute (h : w.Removal) (hother : other.Removal) : w.Commute other := by
  obtain ⟨gone, _, hgone⟩ := h.getElem?_apply
  obtain ⟨gone', _, hgone'⟩ := hother.getElem?_apply
  intro p
  apply Std.ExtTreeMap.ext_getElem?
  intro key
  rw [hgone, hgone', hgone', hgone]
  by_cases hkey : gone key
  · rw [if_pos hkey, if_pos hkey, ite_self]
  · rw [if_neg hkey, if_neg hkey]

/-- Counts a write. -/
def count : Write → Store → Store
  | put _, s => { s with putCalls := s.putCalls + 1 }
  | remove _, s => { s with removeCalls := s.removeCalls + 1 }
  | removeRange _ _, s => { s with removeCalls := s.removeCalls + 1 }
  | replace _ _, s => { s with putCalls := s.putCalls + 1 }

/-- Writes are counted in any order. -/
theorem count_comm (w other : Write) (s : Store) :
    w.count (other.count s) = other.count (w.count s) := by
  cases w <;> cases other <;> rfl

/-- A write is counted before or after another changes its partition. -/
theorem count_write (w : Write) (s : Store) (addr : Address) (change : Partition → Partition) :
    w.count (s.write addr change).1 = ((w.count s).write addr change).1 := by
  have hfailures : (w.count s).failures = s.failures := by cases w <;> rfl
  have hparts : (w.count s).parts = s.parts := by cases w <;> rfl
  unfold Store.write
  rw [hfailures, hparts]
  cases s.failures[addr]? with
  | some code => rfl
  | none =>
    cases s.parts[addr]? with
    | none => rfl
    | some p => cases w <;> rfl

end Write

namespace Store

/-- A write to a partition changes contents alone. -/
theorem write_eq (s : Store) (addr : Address) (change : Partition → Partition) :
    (s.write addr change).1 = { s with parts := (s.write addr change).1.parts } := by
  unfold write
  cases s.failures[addr]? with
  | some code => rfl
  | none => cases s.parts[addr]? <;> rfl

/-- Changes of partitions may change places when the partitions differ or the changes may. -/
theorem write_comm {addr other : Address} {change change' : Partition → Partition}
    (h : addr = other → ∀ p, change' (change p) = change (change' p)) (s : Store) :
    ((s.write addr change).1.write other change').1 =
      ((s.write other change').1.write addr change).1 := by
  have hparts : ((s.write addr change).1.write other change').1.parts =
      ((s.write other change').1.write addr change).1.parts := by
    apply Std.ExtTreeMap.ext_getElem?
    intro place
    simp only [getElem?_write, (frame_write _ _ _).2]
    by_cases hfirst : place = addr ∧ s.failures[addr]? = none
    · by_cases hsecond : place = other ∧ s.failures[other]? = none
      · have hchanges := funext (h (hfirst.1.symm.trans hsecond.1))
        rw [if_pos hsecond, if_pos hfirst, if_pos hfirst, if_pos hsecond, Option.map_map,
          Option.map_map]
        exact congrArg (Option.map · _) hchanges
      · rw [if_neg hsecond, if_pos hfirst, if_pos hfirst, if_neg hsecond]
    · rw [if_neg hfirst, if_neg hfirst]
  rw [write_eq _ other, hparts, write_eq s addr, write_eq _ addr, write_eq s other]

end Store

namespace Write

/-- The store after a write to one of its partitions. -/
def onto (w : Write) (addr : Address) (s : Store) : Store := ((w.count s).write addr w.apply).1

/-- Writes may change places when they go to different partitions or may in their partition. -/
theorem onto_comm {w other : Write} {addr addr' : Address} (h : addr = addr' → w.Commute other)
    (s : Store) : other.onto addr' (w.onto addr s) = w.onto addr (other.onto addr' s) := by
  rw [onto, onto, onto, onto, count_write, count_write, count_comm, Store.write_comm h]

end Write

namespace Node

variable (node : Node) (space : SpaceId) {part other : PartId}

/-- A write to a partition that is not down is carried out by the store. -/
theorem perform_of_up (hup : part ∉ node.down) (w : Write) :
    (node.perform space part w).1 = { node with store := w.onto ⟨space, part⟩ node.store } := by
  unfold perform
  rw [if_neg hup]
  cases w <;> rfl

/-- A write to a partition that is down changes nothing. -/
theorem perform_of_down (hdown : part ∈ node.down) (w : Write) :
    (node.perform space part w).1 = node := by
  rw [perform, if_pos hdown]

/-- Writes through a node may change places when they go to different partitions or may in their
partition. -/
theorem perform_comm {w w' : Write} (h : part = other → w.Commute w') :
    ((node.perform space part w).1.perform space other w').1 =
      ((node.perform space other w').1.perform space part w).1 := by
  by_cases hpart : part ∈ node.down
  · have hafter : part ∈ (node.perform space other w').1.down := by
      rwa [(perform_sameSetting ..).down]
    rw [perform_of_down node space hpart, perform_of_down _ space hafter]
  by_cases hother : other ∈ node.down
  · have hafter : other ∈ (node.perform space part w).1.down := by
      rwa [(perform_sameSetting ..).down]
    rw [perform_of_down node space hother, perform_of_down _ space hafter]
  have haddr : (⟨space, part⟩ : Address) = ⟨space, other⟩ → w.Commute w' :=
    fun heq => h (congrArg Address.part heq)
  let first : Node := { node with store := w.onto ⟨space, part⟩ node.store }
  let second : Node := { node with store := w'.onto ⟨space, other⟩ node.store }
  have hthen := perform_of_up first space hother w'
  have hthen' := perform_of_up second space hpart w
  rw [perform_of_up node space hpart, perform_of_up node space hother, hthen, hthen']
  dsimp only [first, second]
  rw [Write.onto_comm haddr]

/-- What a write does to the store depends on the store and on which partitions are down. -/
theorem perform_store_congr {node other : Node} (hstore : other.store = node.store)
    (hdown : other.down = node.down) (space : SpaceId) (part : PartId) (w : Write) :
    (other.perform space part w).1.store = (node.perform space part w).1.store := by
  by_cases hpart : part ∈ node.down
  · rw [perform_of_down node space hpart, perform_of_down other space (hdown ▸ hpart), hstore]
  · rw [perform_of_up node space hpart, perform_of_up other space (hdown ▸ hpart), hstore]

/-- What writes do to the store depends on the store and on which partitions are down. -/
theorem performAll_store_congr {node other : Node} (hstore : other.store = node.store)
    (hdown : other.down = node.down) (space : SpaceId) (writes : List (PartId × Write)) :
    (other.performAll space writes).store = (node.performAll space writes).store := by
  induction writes generalizing node other with
  | nil => exact hstore
  | cons write writes ih =>
    refine ih (perform_store_congr hstore hdown space write.1 write.2) ?_
    rw [(perform_sameSetting other ..).down, (perform_sameSetting node ..).down, hdown]

/-- Writes of which any two may change places leave the same behind in every order. -/
theorem performAll_perm {writes order : List (PartId × Write)} (horder : order.Perm writes)
    (h : ∀ x ∈ writes, ∀ y ∈ writes, x.1 = y.1 → x.2.Commute y.2) :
    node.performAll space order = node.performAll space writes :=
  (horder.symm.foldl_eq' (fun x hx y hy node => perform_comm node space (h x hx y hy)) node).symm

end Node

end GraphStore
