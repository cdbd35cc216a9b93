import GraphStore.Proofs.Number.Order
import GraphStore.Proofs.Number.Rounding

/-!
# Rounding keeps the order

A greater ratio rounds to a double at least as great, so integers and the doubles nearest to them
are in the same order, but for integers that round to one double.
-/

namespace GraphStore.Double

/-- The whole number of steps nearest to a number, ties to even. -/
def nearestSteps (num step : Nat) : Nat :=
  if step < 2 * (num % step) ∨ (2 * (num % step) = step ∧ num / step % 2 = 1) then num / step + 1
  else num / step

/-- The bits dropped from a quotient so that at most 53 are left. -/
def droppedBits (quotient : Nat) : Nat := quotient.log2 - 52

/-- Rounding counts the nearest number of steps, and as many binades of steps as bits are
dropped. -/
theorem nearestBits_eq (num den : Nat) :
    nearestBits num den = min infinityBits (droppedBits (num / den) * 2 ^ 52 +
      nearestSteps num (den * 2 ^ droppedBits (num / den))) := rfl

/-- The nearest number of steps is one of the two around the ratio. -/
theorem nearestSteps_bounds (num step : Nat) :
    num / step ≤ nearestSteps num step ∧ nearestSteps num step ≤ num / step + 1 := by
  unfold nearestSteps
  split <;> omega

/-- More is at least as many steps. -/
theorem nearestSteps_mono {num other : Nat} (h : num ≤ other) (step : Nat) :
    nearestSteps num step ≤ nearestSteps other step := by
  have hquotient : num / step ≤ other / step := Nat.div_le_div_right h
  have hlow := (nearestSteps_bounds num step).2
  have hhigh := (nearestSteps_bounds other step).1
  by_cases heq : num / step = other / step
  · -- With the same steps below, the remainder decides, and it is at most the other one.
    have hnum := Nat.div_add_mod num step
    have hother := Nat.div_add_mod other step
    rw [heq] at hnum
    unfold nearestSteps
    rw [heq]
    split <;> split <;> omega
  · omega

/-- More bits are dropped from a greater quotient. -/
theorem droppedBits_mono {quotient other : Nat} (h : quotient ≤ other) :
    droppedBits quotient ≤ droppedBits other := by
  rw [droppedBits, droppedBits, Nat.log2_eq_log_two, Nat.log2_eq_log_two]
  exact Nat.sub_le_sub_right (Nat.log_mono_right h) 52

/-- At most 53 bits are left. -/
theorem div_droppedBits_lt (quotient : Nat) : quotient / 2 ^ droppedBits quotient < 2 ^ 53 := by
  rw [Nat.div_lt_iff_lt_mul (Nat.two_pow_pos _), ← pow_add]
  refine lt_of_lt_of_le Nat.lt_log2_self (Nat.pow_le_pow_right (by decide) ?_)
  rw [droppedBits]
  omega

/-- When bits are dropped, 53 are left. -/
theorem le_div_droppedBits {quotient : Nat} (h : 0 < droppedBits quotient) :
    2 ^ 52 ≤ quotient / 2 ^ droppedBits quotient := by
  have hlog : 52 + droppedBits quotient = quotient.log2 := by
    rw [droppedBits] at h ⊢
    omega
  have hne : quotient ≠ 0 := by
    rintro rfl
    exact absurd h (by decide)
  rw [Nat.le_div_iff_mul_le (Nat.two_pow_pos _), ← pow_add, hlog]
  exact Nat.log2_self_le hne

/-- A greater ratio rounds to a double at least as great. -/
theorem nearestBits_mono {num other : Nat} (h : num ≤ other) (den : Nat) :
    nearestBits num den ≤ nearestBits other den := by
  rw [nearestBits_eq, nearestBits_eq]
  refine min_le_min_left _ ?_
  have hquotient : num / den ≤ other / den := Nat.div_le_div_right h
  rcases (droppedBits_mono hquotient).eq_or_lt with heq | hlt
  · rw [heq]
    exact Nat.add_le_add_left (nearestSteps_mono h _) _
  · -- The greatest double with fewer bits dropped is at most the least with more.
    have hbelow := (nearestSteps_bounds num (den * 2 ^ droppedBits (num / den))).2
    have habove := (nearestSteps_bounds other (den * 2 ^ droppedBits (other / den))).1
    rw [← Nat.div_div_eq_div_mul] at hbelow habove
    have hleft := div_droppedBits_lt (num / den)
    have hright := le_div_droppedBits (Nat.zero_lt_of_lt hlt)
    omega

/-- A rounded number is not above infinity. -/
theorem nearestBits_le (num den : Nat) : nearestBits num den ≤ infinityBits :=
  Nat.min_le_left ..

/-- The sign of a double is found again. -/
theorem negative_ofMagnitude (negative : Bool) {magnitude : Nat} (h : magnitude < 2 ^ 63) :
    (ofMagnitude negative magnitude).negative = negative := by
  simp only [ofMagnitude, Double.negative, UInt64.toNat_ofNat']
  cases negative <;> simp <;> omega

/-- The magnitude of the double nearest to an integer. -/
theorem magnitude_ofInt (i : Int) :
    (ofInt i).magnitude = nearestBits (i.natAbs * Nat.pow 2 1074) 1 :=
  magnitude_ofMagnitude _ ((nearestBits_le _ _).trans_lt (by decide))

/-- The sign of the double nearest to an integer. -/
theorem negative_ofInt (i : Int) : (ofInt i).negative = decide (i < 0) :=
  negative_ofMagnitude _ ((nearestBits_le _ _).trans_lt (by decide))

/-- An integer rounds to a number. -/
@[simp] theorem isNaN_ofInt (i : Int) : (ofInt i).isNaN = false := by
  rw [isNaN, magnitude_ofInt, decide_eq_false_iff_not, Nat.not_lt]
  exact nearestBits_le ..

/-- Integers are in the order of the doubles nearest to them. -/
theorem scaled_ofInt_mono {i j : Int} (h : i ≤ j) : (ofInt i).scaled ≤ (ofInt j).scaled := by
  have hmono {m n : Nat} (hle : m ≤ n) :
      units (nearestBits (m * Nat.pow 2 1074) 1) ≤ units (nearestBits (n * Nat.pow 2 1074) 1) :=
    units_strictMono.monotone (nearestBits_mono (Nat.mul_le_mul_right _ hle) 1)
  simp only [scaled, negative_ofInt, magnitude_ofInt, decide_eq_true_eq]
  split
  · next hi =>
    split
    · next hj =>
      have := hmono (show j.natAbs ≤ i.natAbs by omega)
      omega
    · omega
  · next hi =>
    rw [if_neg (by omega)]
    have := hmono (show i.natAbs ≤ j.natAbs by omega)
    omega

end GraphStore.Double
