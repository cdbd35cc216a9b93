import GraphStore.Key.IndexLayout
import GraphStore.Row.Props

/-!
# Index entries of an entity

An entity has one entry in every index over its tag or edge type. The entry is its key; the
value stored under it is empty.
-/

namespace GraphStore.Index

/-- The values of an index's columns; a column that is no property is null. -/
def valuesOf (index : Index) (props : Props) : List Value :=
  index.columns.map fun column => (props.get? column.name).getD .null

/-- The key of the entry that an entity with these properties has in an index. -/
def entryKey (index : Index) (vidLen : Nat) (part : PartId) (entity : Entity) (props : Props) :
    Except ErrorCode Bytes :=
  IndexLayout.encodeKey ⟨index, vidLen⟩ part (index.valuesOf props) entity

/-- The keys of the entries of an entity in all indexes over `owner`. -/
def entryKeys (vidLen : Nat) (part : PartId) (owner : SchemaRef) (entity : Entity)
    (props : Props) (indexes : List Index) : Except ErrorCode (List Bytes) :=
  (indexes.filter (·.owner = owner)).mapM fun index =>
    index.entryKey vidLen part entity props

end GraphStore.Index
