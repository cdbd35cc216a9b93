import GraphStore.Proofs.Query.Entities
import GraphStore.Proofs.Query.Scan

/-!
# What is filtered on and what is shown

A filter and the result rows of a branch find the value of a column in different ways: the filter
asks the entity first, then either the index key or the joined row; a result row asks the joined
row, then the index key. The two ways give the same value except for the entity columns, which a
result row does not know as columns that can be asked for.
-/

namespace GraphStore

namespace QueryScope

variable {scope : QueryScope} {part : PartId} {layout : IndexLayout} {hints : List ColumnHint}
  {schema : Schema} {cache after : Option VertexCache} {hit : Candidate}
  {hits joined : List Candidate}

/-- A scan makes hits without the properties of a row. -/
theorem props_of_scan (h : scope.scan part layout hints = .ok hits) (hhit : hit ∈ hits) :
    hit.props = none := by
  obtain ⟨entries, -, h⟩ := bind_eq_ok.1 h
  obtain ⟨all, hall, h⟩ := bind_eq_ok.1 h
  cases h
  obtain ⟨entry, -, hmade⟩ :=
    exists_of_forall₂_right (mapM_eq_ok.1 hall) (List.mem_filter.1 hhit).1
  exact (candidate_eq_ok.1 hmade).2.2

/-- A joined hit has a property for each column of the schema. -/
theorem of_joined? {raw : Option Bytes} {found : Candidate}
    (h : joined? schema hit raw = some found) : found.entity = hit.entity ∧
      ∃ row, row.length = schema.columns.length ∧
        found.props = some (Props.ofRow schema row) := by
  obtain ⟨raw, -, h⟩ := Option.bind_eq_some_iff.1 h
  split at h
  · next row hread =>
    cases h
    exact ⟨rfl, row, Row.length_of_decode hread, rfl⟩
  · cases h

/-- A join hands on hits of the entities that it is given, with the properties of their rows. -/
theorem mem_join (h : scope.join part schema cache hits = (after, .ok joined))
    (hhit : hit ∈ joined) :
    (∃ other ∈ hits, hit.entity = other.entity) ∧
      ∃ row, row.length = schema.columns.length ∧ hit.props = some (Props.ofRow schema row) := by
  induction hits generalizing cache after joined with
  | nil =>
    cases h
    cases hhit
  | cons first hits ih =>
    unfold join at h
    split at h
    · cases h
    · next between raw _ =>
      cases hrest : scope.join part schema between hits with
      | mk last result =>
        rw [hrest] at h
        obtain ⟨-, hresult⟩ := Prod.mk.inj h
        obtain ⟨others, rfl, rfl⟩ := map_eq_ok.1 hresult
        rcases List.mem_append.1 hhit with hfirst | hother
        · obtain ⟨hentity, hrow⟩ := of_joined? (Option.mem_toList.1 hfirst)
          exact ⟨⟨first, List.mem_cons_self, hentity⟩, hrow⟩
        · obtain ⟨⟨other, hmem, hentity⟩, hrow⟩ := ih hrest hother
          exact ⟨⟨other, List.mem_cons_of_mem _ hmem, hentity⟩, hrow⟩

end QueryScope

/-- What identifies an entity is not null. -/
theorem Entity.ne_null_of_property? {entity : Entity} {name : String} {value : Value}
    (h : entity.property? name = some value) : value ≠ .null := by
  intro hnull
  subst hnull
  unfold property? at h
  cases entity with
  | vertex vid => simp at h
  | edge e => simp [ite_eq_iff] at h

namespace Branch

variable {scope : QueryScope} {part : PartId} {branch : Branch} {cache : Option VertexCache}
  {hit : Candidate} {hits : List Candidate} {name : String}

/-- The hits that reach the output of a branch on a partition. -/
def arriving (scope : QueryScope) (part : PartId) (branch : Branch) (cache : Option VertexCache) :
    Except ErrorCode (List Candidate) := do
  let hits ← scope.scan part branch.layout branch.hints
  let joined ← (branch.joinRows scope part cache hits).2
  return branch.kept joined

/-- The rows of a branch are made of the hits that reach its output. -/
theorem evaluate_eq_arriving (branch : Branch) :
    (branch.evaluate scope part cache).2 = (branch.arriving scope part cache).map
      (·.map (Candidate.output branch.layout branch.returnColumns)) := by
  unfold evaluate arriving
  cases scope.scan part branch.layout branch.hints with
  | error code => rfl
  | ok hits =>
    change (branch.joinRows scope part cache hits).2.map branch.resultRows =
      ((branch.joinRows scope part cache hits).2 >>= fun joined => pure (branch.kept joined)).map _
    cases (branch.joinRows scope part cache hits).2 <;> rfl

/-- What a hit that reaches the output brings along: it is of the kind of the index, and has a
property for each column of the schema if the branch joins, and none if it does not. -/
structure Brings (branch : Branch) (hit : Candidate) : Prop where
  kind : hit.entity.isEdge = branch.layout.isEdge
  bare : branch.schema = none → hit.props = none
  joined : ∀ schema, branch.schema = some schema → ∃ row, row.length = schema.columns.length ∧
    hit.props = some (Props.ofRow schema row)

/-- Hits that reach the output are of the index's kind, and joined if the branch joins. -/
theorem brings_of_arriving (h : branch.arriving scope part cache = .ok hits) (hhit : hit ∈ hits) :
    branch.Brings hit := by
  obtain ⟨scanned, hscan, h⟩ := bind_eq_ok.1 h
  obtain ⟨joined, hjoin, h⟩ := bind_eq_ok.1 h
  cases h
  have hmem : hit ∈ joined := by
    unfold kept at hhit
    split at hhit
    · exact hhit
    · exact List.mem_of_mem_filter hhit
  unfold joinRows at hjoin
  cases hschema : branch.schema with
  | none =>
    rw [hschema] at hjoin
    cases hjoin
    exact {
      kind := QueryScope.isEdge_of_scan hscan hmem
      bare := fun _ => QueryScope.props_of_scan hscan hmem
      joined := fun _ h => by cases hschema.symm.trans h }
  | some schema =>
    rw [hschema] at hjoin
    obtain ⟨⟨other, hother, hentity⟩, hrow⟩ :=
      QueryScope.mem_join (Prod.ext rfl hjoin) hmem
    exact {
      kind := by rw [hentity]; exact QueryScope.isEdge_of_scan hscan hother
      bare := fun h => by cases hschema.symm.trans h
      joined := fun found hfound => by
        obtain rfl := Option.some.inj (hschema.symm.trans hfound)
        exact hrow }

/-- Under a name of no entity column a result row shows what the branch's filter sees, if the row
has a property for each column of the index. -/
theorem Brings.outputValue_eq (h : branch.Brings hit)
    (hcolumns : ∀ schema, branch.schema = some schema →
      ∀ column ∈ branch.layout.index.columns, column.name ∈ schema.names)
    (hname : hit.entity.property? name = none) :
    hit.outputValue branch.layout name = (hit.filterValue? branch.source name).getD .null := by
  unfold Candidate.outputValue Candidate.filterValue? Branch.source
  rw [hname, Option.none_or]
  cases hschema : branch.schema with
  | none =>
    rw [h.bare hschema]
    rfl
  | some schema =>
    obtain ⟨row, hlength, hprops⟩ := h.joined schema hschema
    rw [hprops, Option.bind_some]
    by_cases hcovers : branch.layout.index.covers name = true
    · obtain ⟨column, hmem, hcolumn⟩ := List.any_eq_true.1 hcovers
      obtain rfl := eq_of_beq hcolumn
      have hname := hcolumns schema hschema column hmem
      obtain ⟨value, hvalue⟩ := Props.exists_get?_ofRow hlength hname
      rw [hvalue]
      rfl
    · rw [branch.layout.valueIn?_of_uncovered hcovers, Option.or_none]
      rfl

/-- Under a name that neither the index nor the schema has, a result row shows null. -/
theorem Brings.outputValue_eq_null (h : branch.Brings hit)
    (hcovers : ¬ branch.layout.index.covers name = true)
    (hname : ∀ schema, branch.schema = some schema → name ∉ schema.names) :
    hit.outputValue branch.layout name = .null := by
  rw [Candidate.outputValue, branch.layout.valueIn?_of_uncovered hcovers, Option.or_none]
  cases hschema : branch.schema with
  | none =>
    rw [h.bare hschema]
    rfl
  | some schema =>
    obtain ⟨row, -, hprops⟩ := h.joined schema hschema
    rw [hprops, Option.bind_some, Props.get?_ofRow_of_notMem (hname schema hschema)]
    rfl

/-- Result rows show what the branch's filter sees, except for the entity columns. If the index has
only columns of the schema, then in every hit that reaches the output a name of no entity column has
the same value for both, null where there is none. Under the name of an entity column the filter
sees what identifies the entity, and a result row shows null unless the index or the schema has a
column of that name. -/
theorem filter_and_output_agree {catalog : Catalog} {space : SpaceId} {vidLen : Nat}
    {owner : SchemaRef} {columns : List String} {query : IndexQuery}
    (hbranch : query.branch catalog space vidLen owner columns = .ok branch)
    (hcolumns : ∀ schema, catalog.schema? space owner = some schema →
      ∀ column ∈ branch.layout.index.columns, column.name ∈ schema.names)
    (scope : QueryScope) (part : PartId) (cache : Option VertexCache)
    (harriving : branch.arriving scope part cache = .ok hits) :
    (branch.evaluate scope part cache).2 = .ok (hits.map fun hit =>
      hit.entity.columns ++ columns.map (hit.outputValue branch.layout)) ∧
    ∀ hit ∈ hits, ∀ name,
      (name ∉ resultColumns owner.isEdge [] →
        hit.outputValue branch.layout name =
          (hit.filterValue? branch.source name).getD .null) ∧
      (name ∈ resultColumns owner.isEdge [] →
        ∃ value, value ≠ .null ∧ hit.entity.property? name = some value ∧
          hit.filterValue? branch.source name = some value ∧
          (¬ branch.layout.index.covers name = true →
            (∀ schema, catalog.schema? space owner = some schema → name ∉ schema.names) →
            hit.outputValue branch.layout name = .null)) := by
  have hresolves := IndexQuery.branch_eq_ok.1 hbranch
  have hregistered {schema : Schema} (hschema : branch.schema = some schema) :
      catalog.schema? space owner = some schema := by
    rcases hresolves.schema_eq with hnone | hsome
    · cases hnone.symm.trans hschema
    · rw [← hsome, hschema]
  have hkind : branch.layout.isEdge = owner.isEdge := by
    rw [IndexLayout.isEdge, hresolves.names.2]
  constructor
  · rw [evaluate_eq_arriving, harriving, hresolves.returnColumns_eq]
    rfl
  · intro hit hhit name
    have hbrings := brings_of_arriving harriving hhit
    rw [← hkind, ← hbrings.kind]
    constructor
    · intro hname
      exact hbrings.outputValue_eq (fun schema hschema => hcolumns schema (hregistered hschema))
        (Entity.property?_eq_none hname)
    · intro hname
      obtain ⟨value, hvalue⟩ := Entity.exists_property hname
      refine ⟨value, Entity.ne_null_of_property? hvalue, hvalue, ?_, fun hcovers hschema => ?_⟩
      · unfold Candidate.filterValue?
        rw [hvalue, Option.some_or]
      · exact hbrings.outputValue_eq_null hcovers fun schema hjoined =>
          hschema schema (hregistered hjoined)

/-- A branch that joins the person it finds shows the age that its filter would see, and null under
the name of the id, which its filter would see as well. -/
theorem filter_and_output_agree_people :
    let node := (Node.fresh .people (.table []) {}).after
      [.addPart ⟨1, 1⟩ default, .addPerson "a" 7]
    let scope : QueryScope := { node, space := 1, vidLen := 4, schemaId := 3 }
    let query : IndexQuery := { index := 5 }
    let hit : Candidate := {
      key := [3, 0, 0, 1, 128, 0, 0, 5, 128, 0, 0, 0, 0, 0, 0, 7, 97, 0, 0, 0]
      entity := .vertex "a"
      indexValues := [.int 7]
      props := some [("age", .int 7)] }
    ∃ branch, query.branch .people 1 4 (.tag 3) ["age", "_vid"] = .ok branch ∧
      branch.arriving scope 1 none = .ok [hit] ∧
      hit.outputValue branch.layout "age" = (hit.filterValue? branch.source "age").getD .null ∧
      hit.filterValue? branch.source "_vid" = some (.str "a") ∧
      hit.outputValue branch.layout "_vid" = .null := by
  intro node scope query hit
  have hbuilt : (query.branch .people 1 4 (.tag 3) ["age", "_vid"]).map
      (fun branch => (branch.layout.index.columns.map (·.name), branch.arriving scope 1 none)) =
        .ok (["age"], .ok [hit]) := by
    decide +kernel
  obtain ⟨branch, hbranch, hboth⟩ := map_eq_ok.1 hbuilt
  obtain ⟨hnames, harriving⟩ := Prod.mk.inj hboth
  have hage : ∀ column ∈ branch.layout.index.columns, column.name = "age" := by
    intro column hcolumn
    have hmem := List.mem_map_of_mem (f := (·.name)) hcolumn
    rw [hnames] at hmem
    exact List.mem_singleton.1 hmem
  have hregistered : Catalog.people.schema? 1 (.tag 3) =
      some { columns := [{ name := "age", ty := .int64 }] } := by decide +kernel
  have hcolumns : ∀ schema, Catalog.people.schema? 1 (.tag 3) = some schema →
      ∀ column ∈ branch.layout.index.columns, column.name ∈ schema.names := by
    intro schema hschema column hcolumn
    obtain rfl := Option.some.inj (hregistered.symm.trans hschema)
    rw [hage column hcolumn]
    decide
  obtain ⟨-, hagree⟩ := filter_and_output_agree hbranch hcolumns scope 1 none harriving
  obtain ⟨value, -, hid, hseen, hshown⟩ :=
    (hagree hit (List.mem_singleton_self hit) "_vid").2 (by decide)
  obtain rfl : .str "a" = value := Option.some.inj hid
  refine ⟨branch, hbranch, harriving,
    (hagree hit (List.mem_singleton_self hit) "age").1 (by decide), hseen, hshown ?_ ?_⟩
  · intro hcovers
    obtain ⟨column, hcolumn, hname⟩ := List.any_eq_true.1 hcovers
    rw [hage column hcolumn] at hname
    exact absurd hname (by decide)
  · intro schema hschema
    obtain rfl := Option.some.inj (hregistered.symm.trans hschema)
    decide

/-- A lookup of the person with id a that asks for the id as a column shows it as null, next to the
entity column of that name: the filter sees the id and a result row does not, although the index has
only columns of the schema and its entry is that of the stored row. -/
theorem id_shown_as_null :
    let node := (Node.fresh .people (.table []) {}).after
      [.addPart ⟨1, 1⟩ default, .addPerson "a" 7]
    let named : Expr := .relational .eq (.property "_vid") (.constant (.str "a"))
    let query : IndexQuery := { index := 5, filter := named.encode }
    let indices : IndexSpec := { queries := [query], isEdge := false, schemaId := 3 }
    let req : Lookup := { space := 1, parts := [1], indices, returnColumns := ["_vid"] }
    let scope := req.scope node 4
    let hit : Candidate := {
      key := [3, 0, 0, 1, 128, 0, 0, 5, 128, 0, 0, 0, 0, 0, 0, 7, 97, 0, 0, 0]
      entity := .vertex "a"
      indexValues := [.int 7]
      props := some [("age", .int 7)] }
    (query.branch .people 1 4 (.tag 3) ["_vid"]).map (fun branch =>
      (branch.layout.index.columns.map (·.name), branch.arriving scope 1 none,
        hit.filterValue? branch.source "_vid", hit.outputValue branch.layout "_vid")) =
      .ok (["age"], .ok [hit], some (.str "a"), .null) ∧
    (node.lookup req).2.data = { columns := ["_vid", "_vid"], rows := [[.str "a", .null]] } := by
  decide +kernel

end Branch

end GraphStore
