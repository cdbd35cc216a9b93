import GraphStore.Proofs.Filter.Kleene
import GraphStore.Proofs.Outcome
import Mathlib.Logic.Function.Basic

/-!
# Knowing more

A null stands for a value that is not known. Every operation of an expression gives the same result
for every value that could be in the place of a null, or it gives null; so an expression that has a
value on a row keeps it when the row is filled in.
-/

namespace GraphStore

namespace Value

/-- Whether a value may turn out to be another one: null may be any value, and every other value is
only itself. -/
inductive Becomes : Value → Value → Prop where
  | known (v : Value) : Becomes v v
  | filled (v : Value) : Becomes .null v

/-- A value that is known stays. -/
theorem Becomes.eq_of_ne_null {v w : Value} (h : v.Becomes w) (hv : v ≠ .null) : w = v := by
  cases h with
  | known => rfl
  | filled => exact absurd rfl hv

/-- A negation is only known of what is known. -/
theorem Becomes.negated {v w : Value} (h : v.Becomes w) : v.negated.Becomes w.negated := by
  cases h with
  | known v => exact .known _
  | filled v => exact .filled _

variable {a b a' b' : Value}

/-- A comparison is only known of what is known. -/
theorem Becomes.relational (op : RelOp) (ha : a.Becomes a') (hb : b.Becomes b') :
    (op.apply a b).Becomes (op.apply a' b') := by
  cases ha with
  | filled a' => exact .filled _
  | known a =>
    cases hb with
    | known b => exact .known _
    | filled b' =>
      have hnull : op.apply a .null = .null := if_pos (Bool.or_true a.isNull)
      rw [hnull]
      exact .filled _

/-- The result of an arithmetic operation is only known of what is known. -/
theorem Becomes.arithmetic (op : ArithOp) (ha : a.Becomes a') (hb : b.Becomes b') :
    (op.apply a b).Becomes (op.apply a' b') := by
  cases ha with
  | filled a' =>
    have hnull : op.apply .null b = .null := by cases b <;> rfl
    rw [hnull]
    exact .filled _
  | known a =>
    cases hb with
    | known b => exact .known _
    | filled b' =>
      have hnull : op.apply a .null = .null := by cases a <;> rfl
      rw [hnull]
      exact .filled _

/-- A logical operation is known as soon as the operands that are known decide it. -/
theorem Becomes.logical (op : LogicOp) {values others : List Value}
    (h : List.Forall₂ Becomes values others) :
    (op.ofValues values).Becomes (op.ofValues others) := by
  by_cases hdominant : .bool op.dominant ∈ values
  · obtain ⟨other, hmem, hbecomes⟩ := exists_of_forall₂_left h hdominant
    obtain rfl := hbecomes.eq_of_ne_null nofun
    rw [← LogicOp.ofValues_eq_dominant.2 hdominant, ← LogicOp.ofValues_eq_dominant.2 hmem]
    exact .known _
  · by_cases hall : ∀ v ∈ values, v = .bool !op.dominant
    · have hothers : ∀ w ∈ others, w = .bool !op.dominant := by
        intro w hw
        obtain ⟨v, hv, hbecomes⟩ := exists_of_forall₂_right h hw
        obtain rfl := hall v hv
        exact hbecomes.eq_of_ne_null nofun
      rw [LogicOp.ofValues_eq_other.2 hall, LogicOp.ofValues_eq_other.2 hothers]
      exact .known _
    · have hnull : op.ofValues values = .null := (if_neg hdominant).trans (if_neg hall)
      rw [hnull]
      exact .filled _

end Value

/-- Whether a row has every value that another row has, and perhaps more where that one has nothing
or null. -/
def Supplements (more row : String → Option Value) : Prop :=
  ∀ name value, row name = some value → value ≠ .null → more name = some value

/-- A row is supplemented by a value for a name without one. -/
theorem supplements_update {row : String → Option Value} {name : String} (value : Value)
    (h : (row name).getD .null = .null) : Supplements (Function.update row name (some value)) row := by
  intro other found hfound hne
  by_cases heq : other = name
  · subst heq
    rw [hfound] at h
    exact absurd h hne
  · rw [Function.update_of_ne heq, hfound]

namespace Expr

variable {row more : String → Option Value}

mutual

/-- The value of an expression is only known from what is known of the row. -/
theorem eval_becomes (h : Supplements more row) :
    ∀ e : Expr, (e.eval row).Becomes (e.eval more)
  | constant value => .known value
  | property name => by
    rw [eval, eval]
    cases hfound : row name with
    | none => exact .filled _
    | some value =>
      by_cases hnull : value = .null
      · subst hnull
        exact .filled _
      · rw [h name value hfound hnull]
        exact .known _
  | relational op left right => by
    rw [eval, eval]
    exact .relational op (eval_becomes h left) (eval_becomes h right)
  | arithmetic op left right => by
    rw [eval, eval]
    exact .arithmetic op (eval_becomes h left) (eval_becomes h right)
  | logical op operands => by
    rw [eval_logical, eval_logical]
    exact .logical op (operands_become h operands)
  | negation operand => by
    rw [eval_negation, eval_negation]
    exact (eval_becomes h operand).negated

/-- The values of operands are only known from what is known of the row. -/
theorem operands_become (h : Supplements more row) :
    ∀ operands : List Expr,
      List.Forall₂ Value.Becomes (operands.map (eval row)) (operands.map (eval more))
  | [] => .nil
  | operand :: rest => .cons (eval_becomes h operand) (operands_become h rest)

end

/-- An expression that is not null on a row has the same value on every row that supplements it.
A filter that holds goes on holding, in particular when a property without a value is given one. -/
theorem eval_of_supplements (e : Expr) (row : String → Option Value) :
    (∀ more, Supplements more row →
        (e.eval row ≠ .null → e.eval more = e.eval row) ∧
          (e.holds row = true → e.holds more = true)) ∧
      ∀ name value, (row name).getD .null = .null → e.holds row = true →
        e.holds (Function.update row name (some value)) = true := by
  have hholds (more : String → Option Value) (h : Supplements more row)
      (hrow : e.holds row = true) : e.holds more = true := by
    have htrue : e.eval row = .bool true := of_decide_eq_true hrow
    have hsame := (eval_becomes h e).eq_of_ne_null (by rw [htrue]; nofun)
    exact decide_eq_true (hsame.trans htrue)
  exact ⟨fun more h => ⟨(eval_becomes h e).eq_of_ne_null, hholds more h⟩,
    fun name value hnull => hholds _ (supplements_update value hnull)⟩

/-- A filter that holds because of one property goes on holding when the other is filled in. -/
theorem eval_of_supplements_of_named :
    let row : String → Option Value := fun name => if name = "name" then some (.str "a") else none
    let more := Function.update row "age" (some (.int 7))
    let e := logical .or [relational .gt (property "age") (constant (.int 9)),
      relational .eq (property "name") (constant (.str "a"))]
    (Supplements more row ∧ e.eval row ≠ .null ∧ (row "age").getD .null = .null ∧
        e.holds row = true) ∧
      e.eval more = e.eval row ∧ e.holds more = true := by
  intro row more e
  have hnone : (row "age").getD .null = .null := by decide
  have hmore : Supplements more row := supplements_update _ hnone
  have htrue : e.eval row = .bool true := by decide +kernel
  have hholds : e.holds row = true := decide_eq_true htrue
  have hne : e.eval row ≠ .null := by rw [htrue]; nofun
  obtain ⟨hall, hone⟩ := eval_of_supplements e row
  exact ⟨⟨hmore, hne, hnone, hholds⟩, (hall more hmore).1 hne, hone "age" _ hnone hholds⟩

end Expr

end GraphStore
