import GraphStore.Mutation.ChainedEdges
import GraphStore.Mutation.Edges
import GraphStore.Mutation.Vertices

/-!
# Failures to prepare a mutation

A failure is reported by its code, and the code of success is reported by nobody; that of a
condition that does not hold is left to the condition itself. What a mutation prepares therefore
has to fail with another code, whatever step it fails in: the layout of the space, the schema, the
row, its key, its index entries, or a read of the store.
-/

namespace GraphStore

/-- A step that does not call its failure, if it fails, a success, nor a condition that does not
hold. -/
structure Truthful {α : Type} (x : Except ErrorCode α) : Prop where
  ne_succeeded : x ≠ .error .succeeded
  ne_filterOut : x ≠ .error .filterOut

namespace Truthful

variable {α β : Type} {x : Except ErrorCode α} {f : α → Except ErrorCode β}

/-- What succeeds does not fail. -/
theorem ok (a : α) : Truthful (.ok a) := ⟨nofun, nofun⟩

/-- A failure passed on is told as it was. -/
theorem passOn {code : ErrorCode} (h : Truthful (.error code : Except ErrorCode α)) :
    Truthful (.error code : Except ErrorCode β) where
  ne_succeeded heq := h.ne_succeeded (congrArg _ (Except.error.inj heq))
  ne_filterOut heq := h.ne_filterOut (congrArg _ (Except.error.inj heq))

/-- Steps one after another fail as one of them does. -/
theorem bind (hx : Truthful x) (hf : ∀ a, Truthful (f a)) : Truthful (x >>= f) := by
  cases x with
  | ok a => exact hf a
  | error code => exact hx.passOn

/-- A list of steps fails as one of them does. -/
theorem mapM (hf : ∀ a, Truthful (f a)) (items : List α) : Truthful (items.mapM f) := by
  induction items with
  | nil => exact ok []
  | cons item items ih =>
    rw [List.mapM_cons]
    exact (hf item).bind fun _ => ih.bind fun _ => ok _

end Truthful

namespace Key

variable (vidLen : Nat) (part : PartId)

/-- A vertex id is refused as such. -/
theorem padVid_truthful (vid : VertexId) : Truthful (padVid vidLen vid) := by
  unfold padVid
  dsimp only
  split <;> exact ⟨nofun, nofun⟩

/-- The stem of a vertex is refused for its id. -/
theorem vertexStem_truthful (vid : VertexId) : Truthful (vertexStem vidLen part vid) :=
  (padVid_truthful vidLen vid).bind fun _ => .ok _

/-- The key of a tag row is refused for its vertex. -/
theorem vertex_truthful (vid : VertexId) (tag : TagId) : Truthful (vertex vidLen part vid tag) :=
  (vertexStem_truthful vidLen part vid).bind fun _ => .ok _

/-- The key of an edge is refused for one of its ends. -/
theorem edge_truthful (e : EdgeKey) : Truthful (edge vidLen part e) :=
  (padVid_truthful vidLen e.src).bind fun _ => (padVid_truthful vidLen e.dst).bind fun _ => .ok _

end Key

namespace IndexLayout

/-- A value that does not fit its column is refused as such. -/
theorem encodeValue_truthful (column : Column) (value : Value) :
    Truthful (encodeValue column value) := by
  unfold encodeValue
  split
  · split <;> exact ⟨nofun, nofun⟩
  all_goals exact ⟨nofun, nofun⟩

/-- Columns are refused for one of their values, or for a null that has no place. -/
theorem encodeColumns_truthful (i : Nat) (columns : List Column) (values : List Value) :
    Truthful (encodeColumns i columns values) := by
  induction columns generalizing i values with
  | nil =>
    cases values <;> exact .ok _
  | cons column columns ih =>
    cases values with
    | nil => exact .ok _
    | cons value values =>
      rw [encodeColumns]
      refine (encodeValue_truthful column value).bind fun encoded => ?_
      dsimp only
      split
      · exact ⟨nofun, nofun⟩
      · exact (ih (i + 1) values).bind fun _ => .ok _

/-- The entity of an entry is refused for a vertex id, or for not being one of the index. -/
theorem encodeEntity_truthful (layout : IndexLayout) (entity : Entity) :
    Truthful (layout.encodeEntity entity) := by
  unfold encodeEntity
  split
  · exact Key.padVid_truthful ..
  · exact (Key.padVid_truthful ..).bind fun _ => (Key.padVid_truthful ..).bind fun _ => .ok _
  · exact ⟨nofun, nofun⟩

/-- An index key is refused for its columns or its entity. -/
theorem encodeKey_truthful (layout : IndexLayout) (part : PartId) (values : List Value)
    (entity : Entity) : Truthful (layout.encodeKey part values entity) := by
  rw [encodeKey]
  dsimp only
  split
  · exact ⟨nofun, nofun⟩
  · exact (encodeColumns_truthful ..).bind fun _ =>
      (encodeEntity_truthful layout entity).bind fun _ => .ok _

end IndexLayout

/-- Index entries are refused for one of their keys. -/
theorem Index.entryKeys_truthful (vidLen : Nat) (part : PartId) (owner : SchemaRef)
    (entity : Entity) (props : Props) (indexes : List Index) :
    Truthful (entryKeys vidLen part owner entity props indexes) :=
  .mapM (fun _ => IndexLayout.encodeKey_truthful ..) _

/-- A fault of a row is told as such. -/
theorem RowFault.toErrorCode_truthful {α : Type} (fault : RowFault) (onEdge : Bool) :
    Truthful (.error (fault.toErrorCode onEdge) : Except ErrorCode α) := by
  cases fault <;> cases onEdge <;> exact ⟨nofun, nofun⟩

/-- A row is refused for its fault. -/
theorem encodeRow_truthful (schema : Schema) (names : List String) (values : List Value)
    {tell : RowFault → ErrorCode}
    (htell : ∀ fault, Truthful (.error (tell fault) : Except ErrorCode Bytes)) :
    Truthful (encodeRow schema names values tell) := by
  unfold encodeRow
  split
  · exact .ok _
  · exact htell _

namespace Node

variable (node : Node) (space : SpaceId)

/-- A schema that is missing is reported with the given code. -/
theorem schemaOr_truthful (ref : SchemaRef) {missing : ErrorCode}
    (h : Truthful (.error missing : Except ErrorCode Schema)) :
    Truthful (node.schemaOr space ref missing) := by
  unfold schemaOr
  split
  · exact .ok _
  · exact h

/-- A space without width or without listing of its indexes is reported as such. -/
theorem layout_truthful (onEdges : Bool) : Truthful (node.layout space onEdges) := by
  unfold layout
  split <;> exact ⟨nofun, nofun⟩

/-- A read is refused by a partition that is down or absent. -/
theorem read_truthful {α β : Type} (part : PartId) (f : Partition → α) {code : EngineCode}
    (h : node.reading part (node.store.read ⟨space, part⟩ f) = .error code) :
    Truthful (.error code.toErrorCode : Except ErrorCode β) := by
  unfold reading Store.read at h
  split at h
  · cases h
    exact ⟨nofun, nofun⟩
  · split at h
    · cases h
    · cases h
      exact ⟨nofun, nofun⟩

end Node

end GraphStore
