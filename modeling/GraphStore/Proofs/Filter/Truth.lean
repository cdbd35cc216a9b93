import GraphStore.Proofs.Filter.Kleene

/-!
# When comparisons and conjunctions are true

A comparison is true of two values that compare as it says, and a conjunction when all of its
operands are true: null and values that do not compare make neither true.
-/

namespace GraphStore

/-- Null does not compare. -/
theorem Value.compare?_of_isNull {a b : Value} (h : (a.isNull || b.isNull) = true) :
    a.compare? b = none := by
  cases a <;> cases b <;> first | rfl | cases h

namespace RelOp

variable {a b : Value}

/-- Values are equal when they compare so. -/
theorem apply_eq_eq_true : eq.apply a b = .bool true ↔ a.compare? b = some .eq := by
  unfold apply
  split
  · next hnull => simp [Value.compare?_of_isNull hnull]
  · simp

/-- A value is below another when they compare so. -/
theorem apply_lt_eq_true : lt.apply a b = .bool true ↔ a.compare? b = some .lt := by
  unfold apply
  split
  · next hnull => simp [Value.compare?_of_isNull hnull]
  · cases a.compare? b with
    | none => simp
    | some ordering => cases ordering <;> simp

/-- A value is at least another when they compare so. -/
theorem apply_ge_eq_true :
    ge.apply a b = .bool true ↔ a.compare? b = some .eq ∨ a.compare? b = some .gt := by
  unfold apply
  split
  · next hnull => simp [Value.compare?_of_isNull hnull]
  · cases a.compare? b with
    | none => simp
    | some ordering => cases ordering <;> simp

end RelOp

/-- A conjunction is true when all of its operands are. -/
theorem Expr.eval_and_eq_true {row : String → Option Value} {operands : List Expr} :
    (logical .and operands).eval row = .bool true ↔
      ∀ operand ∈ operands, operand.eval row = .bool true := by
  rw [eval_logical]
  exact LogicOp.ofValues_eq_other.trans List.forall_mem_map

end GraphStore
