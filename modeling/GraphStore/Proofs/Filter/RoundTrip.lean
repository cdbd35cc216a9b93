import GraphStore.Filter.Text
import GraphStore.Mutation.Update
import GraphStore.Query.Branch
import GraphStore.Proofs.Row.Written

/-!
# Encoded expressions decode back

What decoding makes of an encoded expression is settled by the expression alone. The text of a
double that is not finite says null, which is no double, and a text that nests too deep is refused;
every other expression is found again.
-/

namespace GraphStore

namespace Expr

mutual

/-- Whether no constant of an expression is a double without a literal. -/
def isFinite : Expr → Bool
  | constant value => value.isFinite
  | property _ => true
  | relational _ left right => isFinite left && isFinite right
  | arithmetic _ left right => isFinite left && isFinite right
  | logical _ operands => areFinite operands
  | negation operand => isFinite operand

/-- Whether no constant of the expressions is a double without a literal. -/
def areFinite : List Expr → Bool
  | [] => true
  | e :: es => isFinite e && areFinite es

end

mutual

/-- The text of an expression stands for numbers that have a literal. -/
theorem isExact_written_toJson : ∀ e : Expr, e.toJson.written.isExact = true
  | constant value => by
    simp [toJson, Json.written, Json.writtenMembers, Json.isExact, Json.membersExact,
      value.isExact_written_toJson]
  | property name => rfl
  | relational _ left right | arithmetic _ left right => by
    simp [toJson, Json.written, Json.writtenMembers, Json.isExact, Json.membersExact,
      isExact_written_toJson left, isExact_written_toJson right]
  | logical _ operands => by
    simp [toJson, Json.written, Json.writtenMembers, Json.isExact, Json.membersExact,
      areExact_written_toJsons operands]
  | negation operand => by
    simp [toJson, Json.written, Json.writtenMembers, Json.isExact, Json.membersExact,
      isExact_written_toJson operand]

/-- The texts of expressions stand for numbers that have a literal. -/
theorem areExact_written_toJsons :
    ∀ es : List Expr, Json.areExact (Json.writtenItems (toJsons es)) = true
  | [] => rfl
  | e :: es => by
    simp [toJsons, Json.writtenItems, Json.areExact, isExact_written_toJson e,
      areExact_written_toJsons es]

end

/-- A comparison is found by its name. -/
theorem unitVariant?_relOp (op : RelOp) :
    Json.unitVariant? true RelOp.ofName? (.str op.name) = some op := by
  cases op <;> decide

/-- An arithmetic operation is found by its name. -/
theorem unitVariant?_arithOp (op : ArithOp) :
    Json.unitVariant? true ArithOp.ofName? (.str op.name) = some op := by
  cases op <;> decide

/-- A logical operation is found by its name. -/
theorem unitVariant?_logicOp (op : LogicOp) :
    Json.unitVariant? true LogicOp.ofName? (.str op.name) = some op := by
  cases op <;> decide

/-- A node written with its kind first is read by its kind and the fields behind it. -/
theorem untag?_kind (inner : Bool) (kind : String) (fields : List (String × Json))
    (hfields : ∀ field ∈ fields, field.1 ≠ "kind") :
    untag? inner (.obj (("kind", .str kind) :: fields)) = some (kind, .obj fields) := by
  have hnone : fields.filter (fun field => field.1 == "kind") = [] := by
    simpa [List.filter_eq_nil_iff] using hfields
  have hall : fields.filter (fun field => field.1 != "kind") = fields := by
    simpa [List.filter_eq_self] using hfields
  simp [untag?, kindName?, hnone, hall]

section Operands

variable {read : Json → Option Expr}

/-- The operands of a comparison or an arithmetic operation are read one after the other. -/
theorem binary?_fields {ofName? : String → Option α} {name : String} {op : α} {left right : Expr}
    {leftJson rightJson : Json} (hop : Json.unitVariant? true ofName? (.str name) = some op)
    (hleft : read leftJson = if left.isFinite then some left else none)
    (hright : read rightJson = if right.isFinite then some right else none) :
    binary? ofName? read
        (.obj [("op", .str name), ("left", leftJson), ("right", rightJson)]) =
      if left.isFinite && right.isFinite then some (op, left, right) else none := by
  have hfields : Json.fields ["op", "left", "right"]
      (.obj [("op", .str name), ("left", leftJson), ("right", rightJson)]) =
        some [.given (.str name), .given leftJson, .given rightJson] := rfl
  rw [binary?, hfields]
  simp only [Json.Field.required, hop, hleft, hright, Option.bind_eq_bind, Option.bind_some]
  cases left.isFinite <;> cases right.isFinite <;> rfl

/-- Operands are read when all of them are. -/
theorem mapM_written_toJsons (es : List Expr)
    (hread : ∀ e ∈ es, read e.toJson.written = if e.isFinite then some e else none) :
    (Json.writtenItems (toJsons es)).mapM read = if areFinite es then some es else none := by
  induction es with
  | nil => rfl
  | cons e es ih =>
    rw [toJsons, Json.writtenItems, List.mapM_cons, hread e List.mem_cons_self,
      ih fun other hother => hread other (List.mem_cons_of_mem _ hother), areFinite]
    cases e.isFinite <;> cases areFinite es <;> rfl

/-- An operand nests no deeper than the operands. -/
theorem nesting_le_of_mem {e : Expr} {es : List Expr} (he : e ∈ es) :
    e.toJson.nesting ≤ Json.itemsNesting (toJsons es) := by
  induction es with
  | nil => cases he
  | cons first es ih =>
    rw [toJsons, Json.itemsNesting]
    rcases List.mem_cons.1 he with rfl | he
    · exact Nat.le_max_left _ _
    · exact (ih he).trans (Nat.le_max_right _ _)

end Operands

/-- What the text of an expression stands for is read as the expression if that is finite, else as
none. Each node takes one level of the reading and at least one of the text. -/
theorem ofJson?_written_toJson (inner : Bool) (depth : Nat) (e : Expr)
    (hdepth : e.toJson.nesting ≤ depth) :
    ofJson? inner depth e.toJson.written = if e.isFinite then some e else none := by
  induction depth generalizing inner e with
  | zero => cases e <;> exact absurd hdepth (Nat.not_succ_le_zero _)
  | succ depth ih =>
    cases e with
    | constant value =>
      have huntag := untag?_kind inner "constant" [("value", value.toJson.written)]
        (by simp)
      have hvalue := value.ofJson?_written_toJson true
      have hfields : Json.fields ["value"] (.obj [("value", value.toJson.written)]) =
          some [.given value.toJson.written] := rfl
      simp only [toJson, Json.written, Json.writtenMembers, ofJson?, huntag, hfields,
        Json.Field.required, hvalue, isFinite]
      by_cases hfinite : value.isFinite = true <;> simp [hfinite]
    | property name =>
      have huntag := untag?_kind inner "property" [("name", .str name)] (by simp)
      have hfields : Json.fields ["name"] (.obj [("name", .str name)]) =
          some [.given (.str name)] := rfl
      simp only [toJson, Json.written, Json.writtenMembers, ofJson?, huntag, hfields,
        Json.Field.required, Json.string?]
      rfl
    | relational op left right =>
      have hnesting : max left.toJson.nesting right.toJson.nesting ≤ depth := by
        simpa [toJson, Json.nesting, Json.membersNesting] using hdepth
      have huntag := untag?_kind inner "relational" [("op", .str op.name),
        ("left", left.toJson.written), ("right", right.toJson.written)] (by simp)
      have hbinary := binary?_fields (unitVariant?_relOp op)
        (ih true left (by omega)) (ih true right (by omega))
      simp only [toJson, Json.written, Json.writtenMembers, ofJson?, huntag, hbinary, isFinite]
      by_cases hfinite : (left.isFinite && right.isFinite) = true <;> simp [hfinite]
    | arithmetic op left right =>
      have hnesting : max left.toJson.nesting right.toJson.nesting ≤ depth := by
        simpa [toJson, Json.nesting, Json.membersNesting] using hdepth
      have huntag := untag?_kind inner "arithmetic" [("op", .str op.name),
        ("left", left.toJson.written), ("right", right.toJson.written)] (by simp)
      have hbinary := binary?_fields (unitVariant?_arithOp op)
        (ih true left (by omega)) (ih true right (by omega))
      simp only [toJson, Json.written, Json.writtenMembers, ofJson?, huntag, hbinary, isFinite]
      by_cases hfinite : (left.isFinite && right.isFinite) = true <;> simp [hfinite]
    | logical op operands =>
      have hnesting : Json.itemsNesting (toJsons operands) + 1 ≤ depth := by
        simpa [toJson, Json.nesting, Json.membersNesting] using hdepth
      have huntag := untag?_kind inner "logical" [("op", .str op.name),
        ("operands", .arr (Json.writtenItems (toJsons operands)))] (by simp)
      have hfields : Json.fields ["op", "operands"] (.obj [("op", .str op.name),
          ("operands", .arr (Json.writtenItems (toJsons operands)))]) =
            some [.given (.str op.name), .given (.arr (Json.writtenItems (toJsons operands)))] :=
        rfl
      have hoperands := mapM_written_toJsons operands fun e he =>
        ih true e (by have := nesting_le_of_mem he; omega)
      simp only [toJson, Json.written, Json.writtenMembers, ofJson?, huntag, hfields,
        Json.Field.required, unitVariant?_logicOp, Json.list?, hoperands, isFinite,
        Option.bind_eq_bind, Option.bind_some]
      by_cases hfinite : areFinite operands = true <;> simp [hfinite]
    | negation operand =>
      have hnesting : operand.toJson.nesting ≤ depth := by
        simpa [toJson, Json.nesting, Json.membersNesting] using hdepth
      have huntag := untag?_kind inner "not" [("operand", operand.toJson.written)]
        (by simp)
      have hfields : Json.fields ["operand"] (.obj [("operand", operand.toJson.written)]) =
          some [.given operand.toJson.written] := rfl
      simp only [toJson, Json.written, Json.writtenMembers, ofJson?, huntag, hfields,
        Json.Field.required, ih true operand hnesting, isFinite]
      by_cases hfinite : operand.isFinite = true <;> simp [hfinite]

/-- An encoded expression is not the empty byte string, which stands for no expression. -/
theorem isEmpty_encode (e : Expr) : e.encode.isEmpty = false := by
  cases e <;> rfl

/-- A finite expression that nests no deeper than a document may decodes to itself, any other to
none. Where an expression is asked for, it is taken or refused accordingly. -/
theorem decode?_encode_eq_ite (e : Expr) (query : IndexQuery) (update : UpdateVertex) :
    decode? e.encode =
        (if e.isFinite ∧ e.toJson.nesting ≤ Json.maxDepth then some e else none) ∧
      { query with filter := e.encode }.decodedFilter =
        (if e.isFinite ∧ e.toJson.nesting ≤ Json.maxDepth then .ok (some e)
          else .error .invalidFilter) ∧
      { update with condition := e.encode }.decodedCondition =
        (if e.isFinite ∧ e.toJson.nesting ≤ Json.maxDepth then .ok (some e)
          else .error .invalidFilter) := by
  have hexact := isExact_written_toJson e
  have hdecode : decode? e.encode =
      if e.isFinite ∧ e.toJson.nesting ≤ Json.maxDepth then some e else none := by
    rw [decode?, encode, Json.ofBytes?_toBytes_eq hexact]
    by_cases hdepth : e.toJson.nesting ≤ Json.maxDepth
    · have hread := ofJson?_written_toJson false (Json.maxDepth + 1) e (Nat.le_succ_of_le hdepth)
      simp [hdepth, read?, Json.isReadable_of_isExact _ hexact, hread]
    · simp [hdepth]
  refine ⟨hdecode, ?_, ?_⟩
  · rw [IndexQuery.decodedFilter, isEmpty_encode, hdecode]
    by_cases h : e.isFinite ∧ e.toJson.nesting ≤ Json.maxDepth <;> simp [h]
  · rw [UpdateVertex.decodedCondition, isEmpty_encode, hdecode]
    by_cases h : e.isFinite ∧ e.toJson.nesting ≤ Json.maxDepth <;> simp [h]

end Expr

end GraphStore
