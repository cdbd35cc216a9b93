import GraphStore.Proofs.Filter.Kleene
import GraphStore.Proofs.Query.StoredHits
import GraphStore.Proofs.Row.Given

/-!
# Where a filter reads

A filter reads the index key of a hit or the row behind it. The two tell it the same of the entity,
of the columns of the index, and of names that nothing has. A column that is in the schema alone is
null in the key, and a double column of the index shows an integer of the row as a double.
-/

namespace GraphStore

namespace Expr

mutual

/-- The names that an expression reads. -/
def names : Expr → List String
  | constant _ => []
  | property name => [name]
  | relational _ left right => names left ++ names right
  | arithmetic _ left right => names left ++ names right
  | logical _ operands => operandNames operands
  | negation operand => names operand

/-- The names that operands read. -/
def operandNames : List Expr → List String
  | [] => []
  | operand :: rest => names operand ++ operandNames rest

end

variable {row other : String → Option Value}

mutual

/-- An expression depends on the names it reads, and a name without a value is null. -/
theorem eval_congr : ∀ filter : Expr,
    (∀ name ∈ filter.names, (row name).getD .null = (other name).getD .null) →
      filter.eval row = filter.eval other
  | constant _, _ => rfl
  | property name, h => h name (List.mem_singleton_self name)
  | relational op left right, h => by
    rw [eval, eval, eval_congr left fun name hname => h name (List.mem_append_left _ hname),
      eval_congr right fun name hname => h name (List.mem_append_right _ hname)]
  | arithmetic op left right, h => by
    rw [eval, eval, eval_congr left fun name hname => h name (List.mem_append_left _ hname),
      eval_congr right fun name hname => h name (List.mem_append_right _ hname)]
  | logical op operands, h => by
    rw [eval_logical, eval_logical, map_eval_congr operands h]
  | negation operand, h => by
    rw [eval, eval, eval_congr operand h]

/-- Operands depend on the names they read. -/
theorem map_eval_congr : ∀ operands : List Expr,
    (∀ name ∈ operandNames operands, (row name).getD .null = (other name).getD .null) →
      operands.map (eval row) = operands.map (eval other)
  | [], _ => rfl
  | operand :: rest, h => by
    rw [List.map_cons, List.map_cons,
      eval_congr operand fun name hname => h name (List.mem_append_left _ hname),
      map_eval_congr rest fun name hname => h name (List.mem_append_right _ hname)]

end

end Expr

/-- Whether this is an edge. -/
def Entity.isEdge : Entity → Bool
  | vertex _ => false
  | edge _ => true

/-- An entity fills the entity columns. -/
theorem Entity.take_columns (entity : Entity) (row : Row) :
    (entity.columns ++ row).take (resultColumns entity.isEdge []).length = entity.columns := by
  cases entity <;> exact List.take_left' rfl

/-- What the entity columns are called is a property of the entity. -/
theorem Entity.exists_property {entity : Entity} {name : String}
    (h : name ∈ resultColumns entity.isEdge []) : ∃ value, entity.property? name = some value := by
  cases entity with
  | vertex vid =>
    have hname : name = vidProperty := List.mem_singleton.1 h
    exact ⟨.str vid, if_pos hname⟩
  | edge e =>
    have hname : name = srcProperty ∨ name = rankingProperty ∨ name = dstProperty := by
      simpa [resultColumns, isEdge] using h
    rcases hname with rfl | rfl | rfl
    · exact ⟨.str e.src, rfl⟩
    · exact ⟨.int e.ranking, rfl⟩
    · exact ⟨.str e.dst, rfl⟩

/-- A name that is none of the entity columns is no property of the entity. -/
theorem Entity.property?_eq_none {entity : Entity} {name : String}
    (h : name ∉ resultColumns entity.isEdge []) : entity.property? name = none := by
  cases entity with
  | vertex vid => exact if_neg fun heq => h (List.mem_singleton.2 heq)
  | edge e =>
    simp only [resultColumns, isEdge, if_true, List.append_nil, List.mem_cons, List.not_mem_nil,
      or_false, not_or] at h
    simp only [property?, if_neg h.1, if_neg h.2.1, if_neg h.2.2]

/-- Whether a name reads alike in the keys of an index and in rows with such properties: it names an
entity column, or a column of the index of which no row has an integer if it writes doubles, or no
column of the schema. -/
inductive Index.ReadsAlike (index : Index) (isEdge : Bool) (schema? : Option Schema)
    (stored : Props → Prop) (name : String) : Prop where
  | entity (h : name ∈ resultColumns isEdge [])
  | column (hcovers : index.covers name = true)
      (hdouble : ∀ column ∈ index.columns, column.name = name → column.ty = .double →
        ∀ props, stored props → ∀ i, props.get? name ≠ some (.int i))
  | unknown (h : ∀ schema, schema? = some schema → name ∉ schema.names)

/-- An index has no value of a column that it does not cover. -/
theorem IndexLayout.valueIn?_of_uncovered (layout : IndexLayout) {name : String}
    (h : ¬ layout.index.covers name = true) (values : List Value) :
    layout.valueIn? values name = none := by
  have hfind : layout.index.columns.findIdx? (·.name == name) = none :=
    List.findIdx?_eq_none_iff.2 fun column hmem => by
      by_contra hname
      exact h (List.any_eq_true.2 ⟨column, hmem, by simpa using hname⟩)
  rw [valueIn?, position?, hfind, Option.bind_none]

namespace QueryScope

variable {scope : QueryScope} {part : PartId} {layout : IndexLayout} {hints : List ColumnHint}
  {schema : Schema} {props : Props} {hit : Candidate} {hits : List Candidate}

/-- The hits of an index are of its kind. -/
theorem isEdge_of_scan (h : scope.scan part layout hints = .ok hits) (hhit : hit ∈ hits) :
    hit.entity.isEdge = layout.index.owner.isEdge := by
  obtain ⟨-, -, -, -, hdecode⟩ := mem_scan h hhit
  rw [IndexLayout.entity_of_decodeKey hdecode, IndexLayout.decodeEntity]
  cases layout.index.owner <;> rfl

/-- The value that an index keeps of a column of a row. -/
theorem Backs.valueIn? (h : scope.Backs part layout schema props hit) {name : String}
    (hcovers : layout.index.covers name = true) :
    ∃ column ∈ layout.index.columns, column.name = name ∧
      layout.valueIn? hit.indexValues name =
        some (IndexLayout.keptValue column ((props.get? name).getD .null)) := by
  unfold IndexLayout.valueIn? IndexLayout.position?
  cases hfind : layout.index.columns.findIdx? (·.name == name) with
  | none =>
    obtain ⟨column, hmem, hname⟩ := List.any_eq_true.1 hcovers
    exact absurd hname (by simpa using List.findIdx?_eq_none_iff.1 hfind column hmem)
  | some i =>
    obtain ⟨hlt, hname, -⟩ := List.findIdx?_eq_some_iff_getElem.1 hfind
    have hname := eq_of_beq hname
    refine ⟨layout.index.columns[i], List.getElem_mem hlt, hname, ?_⟩
    have hcolumn : layout.index.columns[i]? = some layout.index.columns[i] :=
      List.getElem?_eq_getElem hlt
    rw [Option.bind_some, h.values, IndexLayout.keptValues, Index.valuesOf, List.getElem?_zipWith,
      List.getElem?_map, hcolumn, Option.map_some, hname]

/-- The row behind a hit has no properties but those of its columns. -/
theorem Backs.get?_eq_none (h : scope.Backs part layout schema props hit) {name : String}
    (hname : name ∉ schema.names) : props.get? name = none := by
  obtain ⟨-, row, -, -, rfl⟩ := h.found
  exact Props.get?_ofRow_of_notMem hname row

/-- A name that reads alike has the same value in a filter before a join and behind it. -/
theorem Backs.filterValue?_getD (h : scope.Backs part layout schema props hit) {isEdge : Bool}
    (hkind : hit.entity.isEdge = isEdge) {stored : Props → Prop} (hstored : stored props)
    {name : String} (halike : layout.index.ReadsAlike isEdge (some schema) stored name) :
    (hit.filterValue? (.indexKey layout) name).getD .null =
      (Candidate.filterValue? .fullRow { hit with props := some props } name).getD .null := by
  unfold Candidate.filterValue?
  dsimp only
  cases hentity : hit.entity.property? name with
  | some value => rfl
  | none =>
    rw [Option.none_or, Option.none_or, Option.bind_some]
    have hentity' : name ∉ resultColumns isEdge [] := fun hmem => by
      obtain ⟨value, hvalue⟩ := Entity.exists_property (hkind ▸ hmem)
      cases hentity.symm.trans hvalue
    by_cases hcovers : layout.index.covers name = true
    · obtain ⟨column, hmem, hname, hvalue⟩ := h.valueIn? hcovers
      rw [hvalue, Option.getD_some]
      refine IndexLayout.keptValue_eq fun i hi hty => ?_
      cases halike with
      | entity hmem => exact hentity' hmem
      | column _ hdouble =>
        cases hvalue : props.get? name with
        | none =>
          rw [hvalue] at hi
          cases hi
        | some value =>
          rw [hvalue] at hi
          obtain rfl : value = .int i := hi
          exact hdouble column hmem hname hty props hstored i hvalue
      | unknown hunknown =>
        rw [h.get?_eq_none (hunknown schema rfl)] at hi
        cases hi
    · have hnone := layout.valueIn?_of_uncovered hcovers hit.indexValues
      cases halike with
      | entity hmem => exact absurd hmem hentity'
      | column hcovers' => exact absurd hcovers' hcovers
      | unknown hunknown => rw [hnone, h.get?_eq_none (hunknown schema rfl)]

end QueryScope

end GraphStore
