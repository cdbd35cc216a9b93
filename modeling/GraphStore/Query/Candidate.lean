import GraphStore.Filter.Expr
import GraphStore.Request.Basic
import GraphStore.Key.IndexLayout
import GraphStore.Row.Props

/-!
# Index hits

A lookup passes index hits along until they become result rows. A hit knows its entity and the
values of the index columns; once it is joined with the stored row it knows all properties. A
result row names the entity first, then gives the columns asked for.
-/

namespace GraphStore

/-- An index hit. -/
structure Candidate where
  key : Bytes
  entity : Entity
  /-- Values of the index columns in their order. -/
  indexValues : List Value
  /-- Properties of the stored row, after a join. -/
  props : Option Props := none
  deriving DecidableEq, Repr, Inhabited

/-- The value of an index column in a list of such values. -/
def IndexLayout.valueIn? (layout : IndexLayout) (values : List Value) (column : String) :
    Option Value :=
  (layout.position? column).bind (values[·]?)

namespace Entity

/-- The properties that identify an entity, by name. -/
def property? : Entity → String → Option Value
  | .vertex vid, name => if name = vidProperty then some (.str vid) else none
  | .edge e, name =>
    if name = srcProperty then some (.str e.src)
    else if name = dstProperty then some (.str e.dst)
    else if name = rankingProperty then some (.int e.ranking)
    else none

/-- The leading columns of a result row. -/
def columns : Entity → Row
  | .vertex vid => [.str vid]
  | .edge e => [.str e.src, .int e.ranking, .str e.dst]

end Entity

/-- The header of a lookup's result: what identifies the entity, then the columns asked for. -/
def resultColumns (isEdge : Bool) (returnColumns : List String) : List String :=
  (if isEdge then [srcProperty, rankingProperty, dstProperty] else [vidProperty]) ++ returnColumns

/-- Where a filter finds properties. -/
inductive FilterSource where
  /-- In the values of the index columns. -/
  | indexKey (layout : IndexLayout)
  /-- In the joined row. -/
  | fullRow
  deriving DecidableEq, Repr, Inhabited

namespace Candidate

/-- What a filter sees under a name: first what identifies the entity, then the source. -/
def filterValue? (source : FilterSource) (c : Candidate) (name : String) : Option Value :=
  (c.entity.property? name).or <|
    match source with
    | .indexKey layout => layout.valueIn? c.indexValues name
    | .fullRow => c.props.bind (·.get? name)

/-- What a result row shows in a column: the joined row's value, else the index's, else null. -/
def outputValue (layout : IndexLayout) (c : Candidate) (column : String) : Value :=
  (((c.props.bind (·.get? column)).or (layout.valueIn? c.indexValues column))).getD .null

/-- The result row of a hit. -/
def output (layout : IndexLayout) (columns : List String) (c : Candidate) : Row :=
  c.entity.columns ++ columns.map (c.outputValue layout)

end Candidate

end GraphStore
