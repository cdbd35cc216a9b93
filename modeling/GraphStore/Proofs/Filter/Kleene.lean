import GraphStore.Filter.Expr
import Mathlib.Data.List.Basic

/-!
# Laws of three-valued logic

The operands of a logical operation are evaluated from the left, and the first dominant one ends
the evaluation. What comes out depends only on which values there are: the dominant truth value if
it is one of them, the other truth value if it is the only one, and null in between. From this form
follow the laws that reorder, flatten and negate conditions.
-/

namespace GraphStore

/-- Negates a value. What is no truth value becomes null. -/
def Value.negated : Value → Value
  | .bool b => .bool !b
  | _ => .null

/-- A negated value is a truth value when the value is the other one. -/
theorem Value.negated_eq_bool {v : Value} {b : Bool} : v.negated = .bool b ↔ v = .bool !b := by
  cases v with
  | bool b' => cases b <;> cases b' <;> simp [negated]
  | _ => simp [negated]

namespace RelOp

/-- The comparison that is true of two values where this one is false. -/
def complement : RelOp → RelOp
  | eq => ne
  | ne => eq
  | lt => ge
  | ge => lt
  | le => gt
  | gt => le

/-- To negate a comparison is to compare the other way round: null stays null, and values that do
not compare stay unequal or unordered. -/
theorem negated_apply (op : RelOp) (a b : Value) :
    (op.apply a b).negated = op.complement.apply a b := by
  unfold apply
  split
  · rfl
  · cases a.compare? b with
    | none => cases op <;> rfl
    | some ordering => cases op <;> cases ordering <;> rfl

end RelOp

namespace LogicOp

/-- The operation whose dominant truth value is the other one. -/
def dual : LogicOp → LogicOp
  | and => or
  | or => and

/-- The dual is dominated by the other truth value. -/
theorem dominant_dual (op : LogicOp) : op.dual.dominant = !op.dominant := by
  cases op <;> rfl

/-- What an operation makes of values, whatever their order. -/
def ofValues (op : LogicOp) (values : List Value) : Value :=
  if .bool op.dominant ∈ values then .bool op.dominant
  else if ∀ v ∈ values, v = .bool !op.dominant then .bool !op.dominant
  else .null

variable {op : LogicOp} {values others : List Value}

/-- Values give the dominant truth value when it is one of them. -/
theorem ofValues_eq_dominant :
    .bool op.dominant = op.ofValues values ↔ .bool op.dominant ∈ values := by
  unfold ofValues
  split
  · next hmem => exact iff_of_true rfl hmem
  · next hmem =>
    refine iff_of_false ?_ hmem
    split <;> simp

/-- Values give the other truth value when it is all of them. -/
theorem ofValues_eq_other :
    op.ofValues values = .bool !op.dominant ↔ ∀ v ∈ values, v = .bool !op.dominant := by
  unfold ofValues
  split
  · next hmem =>
    have hne : Value.bool op.dominant ≠ .bool !op.dominant := by simp
    exact iff_of_false hne fun hall => hne (hall _ hmem)
  · split
    · next hall => exact iff_of_true rfl hall
    · next hall => exact iff_of_false nofun hall

/-- Two lists of values give the same when both or neither have the dominant truth value, and both
or neither have nothing but the other one. -/
theorem ofValues_congr (hdominant : .bool op.dominant ∈ values ↔ .bool op.dominant ∈ others)
    (hother : (∀ v ∈ values, v = .bool !op.dominant) ↔ ∀ v ∈ others, v = .bool !op.dominant) :
    op.ofValues values = op.ofValues others :=
  if_congr hdominant rfl (if_congr hother rfl rfl)

/-- The order of values does not matter. -/
theorem ofValues_perm (h : values.Perm others) : op.ofValues values = op.ofValues others :=
  ofValues_congr h.mem_iff (forall_congr' fun _ => imp_congr_left h.mem_iff)

/-- What an operation makes of some values can stand for them among others. -/
theorem ofValues_splice (op : LogicOp) (before inner after : List Value) :
    op.ofValues (before ++ op.ofValues inner :: after) = op.ofValues (before ++ inner ++ after) := by
  apply ofValues_congr
  · simp only [List.mem_append, List.mem_cons, ofValues_eq_dominant, or_assoc]
  · simp only [List.forall_mem_append, List.forall_mem_cons, ofValues_eq_other, and_assoc]

/-- To negate what an operation makes of values is to apply the dual to the negated values. -/
theorem negated_ofValues (op : LogicOp) (values : List Value) :
    (op.ofValues values).negated = op.dual.ofValues (values.map Value.negated) := by
  have hdominant : .bool op.dual.dominant ∈ values.map Value.negated ↔
      .bool op.dominant ∈ values := by
    simp only [List.mem_map, Value.negated_eq_bool, dominant_dual, Bool.not_not, exists_eq_right]
  have hother : (∀ v ∈ values.map Value.negated, v = .bool !op.dual.dominant) ↔
      ∀ v ∈ values, v = .bool !op.dominant := by
    simp only [List.forall_mem_map, Value.negated_eq_bool, dominant_dual, Bool.not_not]
  rw [ofValues, ofValues, if_congr hdominant rfl (if_congr hother rfl rfl), dominant_dual]
  split
  · rfl
  · split <;> rfl

end LogicOp

namespace Expr

variable (row : String → Option Value)

/-- A negation negates the value of its operand. -/
theorem eval_negation (operand : Expr) :
    (negation operand).eval row = (operand.eval row).negated := by
  rw [eval]
  cases operand.eval row <;> rfl

/-- Operands from the left on give what the operation makes of all their values, once an earlier
operand that was no truth value is counted as null. -/
theorem evalOperands_eq (op : LogicOp) (unknown : Bool) (operands : List Expr) :
    evalOperands row op unknown operands =
      op.ofValues ((if unknown then [.null] else []) ++ operands.map (eval row)) := by
  induction operands generalizing unknown with
  | nil => cases unknown <;> cases op <;> rfl
  | cons operand operands ih =>
    rw [evalOperands, List.map_cons]
    split
    · next b heval =>
      by_cases hb : b = op.dominant
      · -- The dominant truth value decides, whatever comes before and after it.
        rw [if_pos hb, heval, hb]
        exact LogicOp.ofValues_eq_dominant.2 (List.mem_append_right _ List.mem_cons_self)
      · have hother : b = !op.dominant := Bool.eq_not_of_ne hb
        rw [if_neg hb, ih, heval, hother]
        apply LogicOp.ofValues_congr
        · simp
        · simp only [List.forall_mem_append, List.forall_mem_cons, true_and]
    · next hvalue =>
      have hne : ∀ b, operand.eval row ≠ .bool b := hvalue
      rw [ih, if_pos rfl]
      apply LogicOp.ofValues_congr
      · simp [(hne op.dominant).symm]
      · simp only [List.forall_mem_append, List.forall_mem_cons]
        exact iff_of_false (fun h => nomatch h.1.1) fun h => hne _ h.2.1

/-- The value of a logical operation is what it makes of the values of its operands. -/
theorem eval_logical (op : LogicOp) (operands : List Expr) :
    (logical op operands).eval row = op.ofValues (operands.map (eval row)) := by
  rw [eval, evalOperands_eq]
  rfl

/-- Logical operations obey the laws of three-valued logic: operands may be reordered, an operand
that is the same operation may be replaced by its operands, and a negation may be moved inside a
logical operation, which becomes its dual, or a comparison, which becomes its complement. -/
theorem logic_laws :
    (∀ op operands others, operands.Perm others →
        (logical op operands).eval row = (logical op others).eval row) ∧
      (∀ op before inner after, (logical op (before ++ logical op inner :: after)).eval row =
        (logical op (before ++ inner ++ after)).eval row) ∧
      (∀ op operands, (negation (logical op operands)).eval row =
        (logical op.dual (operands.map negation)).eval row) ∧
      ∀ op left right, (negation (relational op left right)).eval row =
        (relational op.complement left right).eval row := by
  refine ⟨fun op operands others h => ?_, fun op before inner after => ?_,
    fun op operands => ?_, fun op left right => ?_⟩
  · rw [eval_logical, eval_logical, LogicOp.ofValues_perm (h.map _)]
  · rw [eval_logical, eval_logical, List.map_append, List.map_cons, eval_logical,
      LogicOp.ofValues_splice, List.map_append, List.map_append]
  · have hnegated : Value.negated ∘ eval row = eval row ∘ negation :=
      funext fun operand => (eval_negation row operand).symm
    rw [eval_negation, eval_logical, eval_logical, LogicOp.negated_ofValues, List.map_map,
      List.map_map, hnegated]
  · rw [eval_negation, eval, eval, RelOp.negated_apply]

/-- A false operand decides a conjunction from either side of an operand without a value. -/
theorem logic_laws_of_unknown_operand :
    let row : String → Option Value := fun _ => none
    let operands := [property "name", constant (.bool false)]
    (operands.Perm operands.reverse ∧
        (logical .and operands).eval row = (logical .and operands.reverse).eval row) ∧
      (logical .and operands).eval row = .bool false := by
  intro row operands
  have hperm : operands.Perm operands.reverse := (List.reverse_perm operands).symm
  exact ⟨⟨hperm, (logic_laws row).1 .and operands operands.reverse hperm⟩, rfl⟩

end Expr

end GraphStore
