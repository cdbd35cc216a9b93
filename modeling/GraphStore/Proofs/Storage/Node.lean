import GraphStore.Proofs.Storage.Partition

/-!
# Writes through a node

A write to a partition is answered according to whether the partition is down, failing or absent,
none of which a write changes. All writes of a request to one partition therefore end alike: each
of them is applied, or none is.
-/

namespace GraphStore

/-- The content of a partition after a write. -/
def Write.apply : Write → Partition → Partition
  | put batch, p => p.put batch
  | remove keys, p => p.remove keys
  | removeRange start stop, p => p.removeRange start stop
  | replace removes puts, p => (p.remove removes).put puts

/-- The content of a partition after writes one after another. -/
def Write.applyAll (writes : List Write) (p : Partition) : Partition :=
  writes.foldl (fun p write => write.apply p) p

namespace Store

/-- A write reaches the content of its partition alone, unless the partition fails. -/
theorem getElem?_write (s : Store) (addr other : Address) (change : Partition → Partition) :
    (s.write addr change).1.parts[other]? =
      if other = addr ∧ s.failures[addr]? = none then s.parts[other]?.map change
      else s.parts[other]? := by
  unfold write
  cases hfailure : s.failures[addr]? with
  | some code => simp
  | none =>
    cases hpart : s.parts[addr]? with
    | none =>
      by_cases h : other = addr
      · simp [h, hpart]
      · simp [h]
    | some p =>
      by_cases h : other = addr
      · subst h
        simp [hpart]
      · have hne : compare addr other ≠ .eq := fun heq =>
          h (Std.LawfulEqCmp.eq_of_compare heq).symm
        simp [h, Std.ExtTreeMap.getElem?_insert, hne]

/-- A write is answered by the failure set for its partition, else by whether it is there. -/
theorem code_write (s : Store) (addr : Address) (change : Partition → Partition) :
    (s.write addr change).2 =
      match s.failures[addr]? with
      | some code => code
      | none => if s.parts[addr]?.isSome then .succeeded else .partNotFound := by
  unfold write
  cases s.failures[addr]? with
  | some code => rfl
  | none => cases s.parts[addr]? <;> rfl

/-- A write leaves leaders and failures as they are. -/
theorem frame_write (s : Store) (addr : Address) (change : Partition → Partition) :
    (s.write addr change).1.leaders = s.leaders ∧
      (s.write addr change).1.failures = s.failures := by
  unfold write
  cases s.failures[addr]? with
  | some code => exact ⟨rfl, rfl⟩
  | none => cases s.parts[addr]? <;> exact ⟨rfl, rfl⟩

end Store

/-- Two states of a node that differ at most in the contents of partitions and in counters. -/
structure SameSetting (node other : Node) : Prop where
  catalog : other.catalog = node.catalog
  placement : other.placement = node.placement
  chainWriter : other.chainWriter = node.chainWriter
  cache : other.cache = node.cache
  config : other.config = node.config
  down : other.down = node.down
  leaders : other.store.leaders = node.store.leaders
  failures : other.store.failures = node.store.failures
  parts : ∀ addr : Address, (other.store.parts[addr]?).isSome = (node.store.parts[addr]?).isSome

namespace SameSetting

/-- Every state differs in nothing from itself. -/
theorem refl (node : Node) : SameSetting node node :=
  ⟨rfl, rfl, rfl, rfl, rfl, rfl, rfl, rfl, fun _ => rfl⟩

/-- Settings stay the same from state to state. -/
theorem trans {a b c : Node} (h : SameSetting a b) (h' : SameSetting b c) : SameSetting a c where
  catalog := h'.catalog.trans h.catalog
  placement := h'.placement.trans h.placement
  chainWriter := h'.chainWriter.trans h.chainWriter
  cache := h'.cache.trans h.cache
  config := h'.config.trans h.config
  down := h'.down.trans h.down
  leaders := h'.leaders.trans h.leaders
  failures := h'.failures.trans h.failures
  parts addr := (h'.parts addr).trans (h.parts addr)

end SameSetting

namespace Node

/-- Whether nothing keeps writes from a partition, provided it is there. -/
def Writable (node : Node) (addr : Address) : Prop :=
  addr.part ∉ node.down ∧ node.store.failures[addr]? = none

instance (node : Node) (addr : Address) : Decidable (node.Writable addr) :=
  inferInstanceAs (Decidable (_ ∧ _))

/-- How every write to a partition is answered. -/
def writeCode (node : Node) (space : SpaceId) (part : PartId) : EngineCode :=
  if part ∈ node.down then .unknown
  else
    match node.store.failures[(⟨space, part⟩ : Address)]? with
    | some code => code
    | none =>
      if (node.store.parts[(⟨space, part⟩ : Address)]?).isSome then .succeeded else .partNotFound

/-- A write succeeds when nothing keeps it from a partition that is there. -/
theorem writeCode_of_writable {node : Node} {space : SpaceId} {part : PartId}
    (hwritable : node.Writable ⟨space, part⟩)
    (hthere : (node.store.parts[(⟨space, part⟩ : Address)]?).isSome = true) :
    node.writeCode space part = .succeeded := by
  rw [writeCode, if_neg hwritable.1, hwritable.2]
  exact if_pos hthere

/-- A partition that refuses writes stays as it is. -/
theorem content_of_refused {node : Node} {space : SpaceId} {part : PartId}
    (hcode : node.writeCode space part ≠ .succeeded) (change : Partition → Partition) :
    (if node.Writable ⟨space, part⟩ then node.store.parts[(⟨space, part⟩ : Address)]?.map change
      else node.store.parts[(⟨space, part⟩ : Address)]?) =
        node.store.parts[(⟨space, part⟩ : Address)]? := by
  split
  · next hwritable =>
    have habsent : node.store.parts[(⟨space, part⟩ : Address)]? = none := by
      by_contra hthere
      exact hcode (writeCode_of_writable hwritable (Option.isSome_iff_ne_none.2 hthere))
    rw [habsent]
    rfl
  · rfl

variable (node : Node) (space : SpaceId) (part : PartId) (write : Write)

/-- A write is a change of its partition's content. -/
theorem perform_eq_write (hup : part ∉ node.down) :
    ∃ store : Store, store.parts = node.store.parts ∧ store.leaders = node.store.leaders ∧
      store.failures = node.store.failures ∧ node.perform space part write =
        ({ node with store := (store.write ⟨space, part⟩ write.apply).1 },
          (store.write ⟨space, part⟩ write.apply).2) := by
  unfold perform
  rw [if_neg hup]
  cases write with
  | put batch => exact ⟨{ node.store with putCalls := node.store.putCalls + 1 }, rfl, rfl, rfl, rfl⟩
  | remove keys =>
    exact ⟨{ node.store with removeCalls := node.store.removeCalls + 1 }, rfl, rfl, rfl, rfl⟩
  | removeRange start stop =>
    exact ⟨{ node.store with removeCalls := node.store.removeCalls + 1 }, rfl, rfl, rfl, rfl⟩
  | replace removes puts =>
    exact ⟨{ node.store with putCalls := node.store.putCalls + 1 }, rfl, rfl, rfl, rfl⟩

/-- A write is answered according to its partition. -/
theorem perform_code : (node.perform space part write).2 = node.writeCode space part := by
  by_cases hdown : part ∈ node.down
  · rw [perform, if_pos hdown, writeCode, if_pos hdown]
  · obtain ⟨store, hparts, -, hfailures, h⟩ := perform_eq_write node space part write hdown
    rw [h, writeCode, if_neg hdown, Store.code_write, hparts, hfailures]

/-- A write is applied to its partition, if nothing keeps it from it. -/
theorem perform_parts (addr : Address) :
    (node.perform space part write).1.store.parts[addr]? =
      if addr = ⟨space, part⟩ ∧ node.Writable addr then node.store.parts[addr]?.map write.apply
      else node.store.parts[addr]? := by
  by_cases hdown : part ∈ node.down
  · have hnot : ¬ (addr = ⟨space, part⟩ ∧ node.Writable addr) := by
      rintro ⟨rfl, hup, -⟩
      exact hup hdown
    rw [perform, if_pos hdown, if_neg hnot]
  · obtain ⟨store, hparts, -, hfailures, h⟩ := perform_eq_write node space part write hdown
    rw [h, Store.getElem?_write, hparts, hfailures]
    by_cases haddr : addr = ⟨space, part⟩
    · subst haddr
      simp [Writable, hdown]
    · simp [haddr]

/-- A write leaves the setting as it is. -/
theorem perform_sameSetting : SameSetting node (node.perform space part write).1 := by
  have hsome (addr : Address) :
      ((node.perform space part write).1.store.parts[addr]?).isSome =
        (node.store.parts[addr]?).isSome := by
    rw [perform_parts]
    split
    · exact Option.isSome_map
    · rfl
  by_cases hdown : part ∈ node.down
  · rw [perform, if_pos hdown]
    exact .refl node
  · obtain ⟨store, hparts, hleaders, hfailures, h⟩ :=
      perform_eq_write node space part write hdown
    obtain ⟨hleaders', hfailures'⟩ := Store.frame_write store ⟨space, part⟩ write.apply
    rw [h] at hsome ⊢
    exact ⟨rfl, rfl, rfl, rfl, rfl, rfl, hleaders'.trans hleaders, hfailures'.trans hfailures, hsome⟩

end Node

namespace SameSetting

variable {node other : Node}

/-- The answers to writes depend on the setting alone. -/
theorem writeCode (h : SameSetting node other) (space : SpaceId) (part : PartId) :
    other.writeCode space part = node.writeCode space part := by
  rw [Node.writeCode, Node.writeCode, h.down, h.failures, h.parts]

/-- The leaders are part of the setting. -/
theorem leader (h : SameSetting node other) : other.leader = node.leader := by
  funext space part
  rw [Node.leader, Node.leader, Store.leader, Store.leader, h.leaders]

/-- Which partitions can be written is part of the setting. -/
theorem writable_iff (h : SameSetting node other) (addr : Address) :
    other.Writable addr ↔ node.Writable addr := by
  rw [Node.Writable, Node.Writable, h.down, h.failures]

end SameSetting

namespace Node

/-- The node after writes one after another. -/
def performAll (node : Node) (space : SpaceId) (writes : List (PartId × Write)) : Node :=
  writes.foldl (fun node (part, write) => (node.perform space part write).1) node

/-- The writes of a list to one partition. -/
def writesTo (part : PartId) (writes : List (PartId × Write)) : List Write :=
  writes.filterMap fun (target, write) => if target = part then some write else none

/-- Writes one after another leave the setting as it is. -/
theorem performAll_sameSetting (node : Node) (space : SpaceId) (writes : List (PartId × Write)) :
    SameSetting node (node.performAll space writes) := by
  induction writes generalizing node with
  | nil => exact .refl node
  | cons write writes ih => exact (perform_sameSetting node space _ _).trans (ih _)

/-- Each partition takes the writes to it in order, if nothing keeps them from it. -/
theorem performAll_parts (node : Node) (space : SpaceId) (writes : List (PartId × Write))
    (addr : Address) :
    (node.performAll space writes).store.parts[addr]? =
      if addr.space = space ∧ node.Writable addr then
        node.store.parts[addr]?.map (Write.applyAll (writesTo addr.part writes))
      else node.store.parts[addr]? := by
  induction writes generalizing node with
  | nil =>
    have hid : Write.applyAll [] = id := rfl
    simp [performAll, writesTo, hid]
  | cons entry writes ih =>
    obtain ⟨part, write⟩ := entry
    have hstep : node.performAll space ((part, write) :: writes) =
        (node.perform space part write).1.performAll space writes := rfl
    rw [hstep, ih, perform_parts]
    simp only [(perform_sameSetting node space part write).writable_iff]
    by_cases hopen : addr.space = space ∧ node.Writable addr
    · obtain ⟨rfl, hwritable⟩ := hopen
      by_cases hpart : part = addr.part
      · subst hpart
        have hfirst : writesTo addr.part ((addr.part, write) :: writes) =
            write :: writesTo addr.part writes := by
          simp [writesTo]
        simp only [hwritable, hfirst, and_self, if_true, Option.map_map]
        rfl
      · have hother : writesTo addr.part ((part, write) :: writes) =
            writesTo addr.part writes := by
          simp [writesTo, hpart]
        have hne : addr ≠ ⟨addr.space, part⟩ := fun h => hpart (congrArg Address.part h).symm
        simp [hwritable, hother, hne]
    · have hne : ¬ (addr = ⟨space, part⟩ ∧ node.Writable addr) := by
        rintro ⟨rfl, h⟩
        exact hopen ⟨rfl, h⟩
      rw [if_neg hopen, if_neg hopen, if_neg hne]

end Node

end GraphStore
