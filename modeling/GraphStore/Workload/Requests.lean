import GraphStore.Filter.Text
import GraphStore.Storage.Node
import GraphStore.Workload.Random

/-!
# Requests of the workload

The workload's graph has players who follow one another. Players have an age and a name, and a
follow edge has a degree and perhaps a time; ages and degrees can be indexed. Ages, degrees and
the ends of edges are random.
-/

namespace GraphStore.Workload

/-- The only space. -/
def space : SpaceId := 1

/-- The tag of players. -/
def player : TagId := 1

/-- The type of follow edges. -/
def follow : EdgeType := 2

/-- The index over ages. -/
def ageIndex : Index where
  id := 11
  name := "player_age"
  owner := .tag player
  columns := [{ name := "age", ty := .int64 }]

/-- The index over degrees. -/
def degreeIndex : Index where
  id := 21
  name := "follow_degree"
  owner := .edge follow
  columns := [{ name := "degree", ty := .int64 }]

/-- Registers the schemas, and the indexes if there are to be any. -/
def register (catalog : Catalog) (withIndex : Bool) : Catalog :=
  let catalog := catalog.addTag space player "player"
    { columns := [{ name := "age", ty := .int64 }, { name := "name", ty := .string }] }
  let catalog := catalog.addEdge space follow "follow"
    { columns := [{ name := "degree", ty := .int64 },
        { name := "since", ty := .timestamp, nullable := true }] }
  if withIndex then (catalog.addIndex space ageIndex).addIndex space degreeIndex else catalog

/-- The id of a vertex. -/
def vertexId (i : Nat) : VertexId := s!"v{i}"

/-- Items by partition, in their order. -/
def byPart (items : List (PartId × α)) : PartMap (List α) :=
  items.foldr (fun (part, item) parts => parts.insert part (item :: parts.getD part [])) ∅

/-- A random number below a bound. -/
def drawBelow (bound : Nat) : StateM Random Nat := fun r =>
  let (r, n) := r.below bound
  (n, r)

/-- An integer value. -/
def intValue (n : Nat) : Value := .int (Int64.ofNat n)

/-- A player with a random age. -/
def drawVertex (i : Nat) : StateM Random NewVertex := do
  let age ← drawBelow 100
  return {
    id := vertexId i
    tags := [{ tag := player, props := [intValue age, .str s!"player-{i}"] }] }

/-- Inserts some players. -/
def drawVertices (parts : UInt32) (ids : List Nat) : StateM Random AddVertices := do
  let vertices ← ids.mapM drawVertex
  return {
    space
    parts := byPart (vertices.map fun v => (Placement.bucket parts v.id, v))
    propNames := (∅ : Std.ExtTreeMap TagId (List String)).insert player ["age", "name"] }

/-- A follow edge between random players. -/
def drawEdge (vertices : Nat) (ranking : Nat) : StateM Random NewEdge := do
  let src ← drawBelow vertices
  let dst ← drawBelow vertices
  let degree ← drawBelow 100
  return {
    key := {
      src := vertexId src
      edgeType := follow
      ranking := Int64.ofNat ranking
      dst := vertexId dst }
    props := [intValue degree] }

/-- Inserts follow edges with these rankings. -/
def drawEdges (parts : UInt32) (vertices : Nat) (rankings : List Nat) :
    StateM Random AddEdges := do
  let edges ← rankings.mapM (drawEdge vertices)
  return {
    space
    parts := byPart (edges.map fun e => (Placement.bucket parts e.key.src, e))
    propNames := ["degree"] }

/-- Looks up players of ages from 20 to 29. -/
def agesLookup (parts : List PartId) (filter : Option Expr) (column : String) : Lookup where
  space
  parts
  indices := {
    queries := [{
      index := ageIndex.id
      filter := (filter.map Expr.encode).getD []
      hints := [{ column := "age", scan := .range (.int 20) (.int 30) }] }]
    isEdge := false
    schemaId := player }
  returnColumns := [column]

/-- Looks up edges of degree 99. -/
def degreeLookup (parts : List PartId) : Lookup where
  space
  parts
  indices := {
    queries := [{
      index := degreeIndex.id
      hints := [{ column := "degree", scan := .equal (.int 99) }] }]
    isEdge := true
    schemaId := follow }
  returnColumns := ["degree"]

/-- A lookup for each shape of plan, and one over edges, with the names of their phases. -/
def lookups (parts : UInt32) : List (String × Lookup) :=
  let parts := (List.range parts.toNat).map fun i => Int32.ofNat (i + 1)
  let not25 := Expr.relational .ne (.property "age") (.constant (.int 25))
  let late := Expr.relational .ge (.property "name") (.constant (.str "player-5"))
  [("lookup_scan_output", agesLookup parts none "age"),
    ("lookup_scan_join_output", agesLookup parts none "name"),
    ("lookup_scan_filter_output", agesLookup parts (some not25) "age"),
    ("lookup_scan_join_filter_output", agesLookup parts (some late) "name"),
    ("lookup_edge_range", degreeLookup parts)]

end GraphStore.Workload
