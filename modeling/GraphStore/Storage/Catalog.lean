import GraphStore.Schema.Basic
import Std.Data.ExtTreeMap

/-!
# Catalog of spaces, schemas and indexes

Each space has a width for vertex ids, named schemas of its tags and edge types, and its indexes.
Schemas and indexes may be registered for a space before the space itself. The listing of a
space's indexes can be broken, as if the catalog service were out of reach.
-/

namespace GraphStore

/-- Why the catalog cannot answer. -/
inductive CatalogFault where
  | noSpace (space : SpaceId)
  | zeroVidLen (space : SpaceId)
  | noTag (tag : TagId) (space : SpaceId)
  | noEdge (edge : EdgeType) (space : SpaceId)
  | noIndex (index : IndexId) (space : SpaceId)
  | wrongKind (index : IndexId) (space : SpaceId)
  | noListing (space : SpaceId)
  deriving DecidableEq, Repr, Inhabited

/-- The fault in words. -/
def CatalogFault.message : CatalogFault → String
  | noSpace space => s!"space {space.toInt} not found"
  | zeroVidLen space => s!"space {space.toInt} has invalid vid length 0"
  | noTag tag space => s!"tag {tag.toInt} not found in space {space.toInt}"
  | noEdge edge space => s!"edge {edge.toInt} not found in space {space.toInt}"
  | noIndex index space => s!"index {index.toInt} not found in space {space.toInt}"
  | wrongKind index space =>
    s!"index {index.toInt} in space {space.toInt} has the wrong schema kind"
  | noListing space => s!"failed to list indexes of space {space.toInt}"

/-- What is registered for one space. -/
structure SpaceEntry where
  vidLen? : Option Nat := none
  tags : Std.ExtTreeMap TagId (String × Schema) := ∅
  edges : Std.ExtTreeMap EdgeType (String × Schema) := ∅
  indexes : Std.ExtTreeMap IndexId Index := ∅
  listingBroken : Bool := false
  deriving Inhabited

/-- What is registered for every space. -/
structure Catalog where
  spaces : Std.ExtTreeMap SpaceId SpaceEntry := ∅
  deriving Inhabited

namespace Catalog

/-- The entry of a space, empty when nothing is registered for it. -/
def entry (catalog : Catalog) (space : SpaceId) : SpaceEntry :=
  (catalog.spaces[space]?).getD {}

/-- Changes the entry of a space. -/
def modify (catalog : Catalog) (space : SpaceId) (change : SpaceEntry → SpaceEntry) : Catalog :=
  { spaces := catalog.spaces.insert space (change (catalog.entry space)) }

/-- Registers a space with the width of its vertex ids. -/
def addSpace (catalog : Catalog) (space : SpaceId) (vidLen : Nat) : Catalog :=
  catalog.modify space fun e => { e with vidLen? := some vidLen }

/-- Registers a tag. -/
def addTag (catalog : Catalog) (space : SpaceId) (tag : TagId) (name : String)
    (schema : Schema) : Catalog :=
  catalog.modify space fun e => { e with tags := e.tags.insert tag (name, schema) }

/-- Registers an edge type. -/
def addEdge (catalog : Catalog) (space : SpaceId) (edge : EdgeType) (name : String)
    (schema : Schema) : Catalog :=
  catalog.modify space fun e => { e with edges := e.edges.insert edge (name, schema) }

/-- Registers an index under its number. -/
def addIndex (catalog : Catalog) (space : SpaceId) (index : Index) : Catalog :=
  catalog.modify space fun e => { e with indexes := e.indexes.insert index.id index }

/-- Lets every later listing of the space's indexes fail. -/
def breakListing (catalog : Catalog) (space : SpaceId) : Catalog :=
  catalog.modify space fun e => { e with listingBroken := true }

/-- The width of vertex ids in a space. -/
def vidLen (catalog : Catalog) (space : SpaceId) : Except CatalogFault Nat :=
  match (catalog.entry space).vidLen? with
  | none => .error (.noSpace space)
  | some 0 => .error (.zeroVidLen space)
  | some width => .ok width

/-- Name and schema of a tag or edge type. -/
def named? (catalog : Catalog) (space : SpaceId) : SchemaRef → Option (String × Schema)
  | .tag id => (catalog.entry space).tags[id]?
  | .edge id => (catalog.entry space).edges[id]?

/-- The schema of a tag or edge type. -/
def schema? (catalog : Catalog) (space : SpaceId) (ref : SchemaRef) : Option Schema :=
  (catalog.named? space ref).map (·.2)

/-- The name of a tag or edge type. -/
def name (catalog : Catalog) (space : SpaceId) (ref : SchemaRef) : Except CatalogFault String :=
  match catalog.named? space ref, ref with
  | some (name, _), _ => .ok name
  | none, .tag id => .error (.noTag id space)
  | none, .edge id => .error (.noEdge id space)

/-- An index by its number, over a tag or over an edge type as asked for. -/
def index (catalog : Catalog) (space : SpaceId) (onEdges : Bool) (id : IndexId) :
    Except CatalogFault Index :=
  match (catalog.entry space).indexes[id]? with
  | none => .error (.noIndex id space)
  | some index =>
    if index.owner.isEdge = onEdges then .ok index else .error (.wrongKind id space)

/-- All indexes over tags or over edge types, in order of their numbers. -/
def indexes (catalog : Catalog) (space : SpaceId) (onEdges : Bool) :
    Except CatalogFault (List Index) :=
  let e := catalog.entry space
  if e.vidLen?.isNone || e.listingBroken then .error (.noListing space)
  else .ok ((e.indexes.toList.map (·.2)).filter (·.owner.isEdge = onEdges))

end Catalog

end GraphStore
