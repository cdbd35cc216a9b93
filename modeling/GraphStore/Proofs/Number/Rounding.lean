import GraphStore.Number.Decimal
import Mathlib.Data.Nat.Log
import Mathlib.Tactic.NormNum
import Mathlib.Tactic.Positivity
import Mathlib.Tactic.Ring

/-!
# Rounding to doubles

Rounding depends on the ratio alone, so a decimal number may be rescaled before it is rounded. A
ratio that is a finite double already is that double's pattern, and a 64-bit integer rounds to a
finite double.
-/

namespace GraphStore.Double

/-- Rounding depends on the ratio of the two numbers. -/
theorem nearestBits_mul_right (num den : Nat) {k : Nat} (hk : 0 < k) :
    nearestBits (num * k) (den * k) = nearestBits num den := by
  have hquot : num * k / (den * k) = num / den := Nat.mul_div_mul_right _ _ hk
  simp only [nearestBits, Nat.pow_eq, hquot]
  generalize 2 ^ ((num / den).log2 - 52) = scale
  have hstep : den * k * scale = den * scale * k := by ring
  have hmod : num * k % (den * scale * k) = num % (den * scale) * k := Nat.mul_mod_mul_right ..
  have hdiv : num * k / (den * scale * k) = num / (den * scale) := Nat.mul_div_mul_right _ _ hk
  have hlt : den * scale * k < 2 * (num % (den * scale) * k) ↔
      den * scale < 2 * (num % (den * scale)) := by
    rw [← Nat.mul_assoc]
    exact Nat.mul_lt_mul_right hk
  have heq : 2 * (num % (den * scale) * k) = den * scale * k ↔
      2 * (num % (den * scale)) = den * scale := by
    rw [← Nat.mul_assoc]
    exact Nat.mul_left_inj hk.ne'
  simp only [hstep, hmod, hdiv, hlt, heq]

/-- The leading bit of a normal significand. -/
theorem log2_shifted {fraction : Nat} (shift : Nat) (h : fraction < 2 ^ 52) :
    ((2 ^ 52 + fraction) * 2 ^ shift).log2 = 52 + shift := by
  have hpos : 0 < 2 ^ shift := Nat.two_pow_pos shift
  have hne : (2 ^ 52 + fraction) * 2 ^ shift ≠ 0 := by positivity
  apply (Nat.log2_eq_iff hne).2
  constructor
  · rw [pow_add]
    exact Nat.mul_le_mul_right _ (by omega)
  · rw [show 52 + shift + 1 = 53 + shift by omega, pow_add]
    exact Nat.mul_lt_mul_of_pos_right (by omega) hpos

/-- A finite double rounds to itself. -/
theorem nearestBits_units {magnitude : Nat} (h : magnitude < infinityBits) :
    nearestBits (units magnitude) 1 = magnitude := by
  have hfraction : magnitude % 2 ^ 52 < 2 ^ 52 := Nat.mod_lt _ (by norm_num)
  have hsplit := Nat.div_add_mod magnitude (2 ^ 52)
  have hunits : units magnitude = if magnitude / 2 ^ 52 = 0 then magnitude % 2 ^ 52
      else (2 ^ 52 + magnitude % 2 ^ 52) * 2 ^ (magnitude / 2 ^ 52 - 1) := rfl
  rw [hunits]
  by_cases hzero : magnitude / 2 ^ 52 = 0
  · rw [if_pos hzero]
    have hself : magnitude % 2 ^ 52 = magnitude := by rw [hzero] at hsplit; omega
    rw [hself] at hfraction ⊢
    have hlog : magnitude.log2 - 52 = 0 := by
      by_cases hm : magnitude = 0
      · simp [hm]
      · have := (Nat.log2_lt hm).2 hfraction
        omega
    simp only [nearestBits, Nat.pow_eq, Nat.div_one, hlog, pow_zero, Nat.mul_one, Nat.mod_one]
    rw [if_neg (by omega), Nat.zero_mul, Nat.zero_add]
    exact Nat.min_eq_right h.le
  · rw [if_neg hzero]
    obtain ⟨shift, hshift⟩ : ∃ n, magnitude / 2 ^ 52 = n + 1 := ⟨magnitude / 2 ^ 52 - 1, by omega⟩
    rw [hshift] at hsplit ⊢
    have hpos : 0 < 2 ^ shift := Nat.two_pow_pos shift
    simp only [nearestBits, Nat.pow_eq, Nat.div_one, Nat.add_sub_cancel, log2_shifted shift hfraction,
      Nat.add_sub_cancel_left, Nat.one_mul, Nat.mul_div_cancel _ hpos, Nat.mul_mod_left]
    rw [if_neg (by omega)]
    have hsum : shift * 0x10000000000000 + (2 ^ 52 + magnitude % 2 ^ 52) = magnitude := by omega
    rw [hsum]
    exact Nat.min_eq_right h.le

/-- A number far above all finite doubles rounds to infinity. -/
theorem nearestBits_of_large {num : Nat} (exponent : Nat) (hexponent : 2099 ≤ exponent)
    (h : 2 ^ exponent ≤ num) : nearestBits num 1 = infinityBits := by
  have hne : num ≠ 0 := by
    have := Nat.two_pow_pos exponent
    omega
  have hlog : exponent ≤ num.log2 := (Nat.le_log2 hne).2 h
  have hdropped : 2047 * 2 ^ 52 ≤ (num.log2 - 52) * 2 ^ 52 := Nat.mul_le_mul_right _ (by omega)
  simp only [nearestBits, Nat.pow_eq, Nat.div_one]
  apply Nat.min_eq_left
  rw [infinityBits]
  exact le_trans hdropped (Nat.le_add_right _ _)

/-- A number below half the least double rounds to zero. -/
theorem nearestBits_of_small {num den : Nat} (h : 2 * num < den) : nearestBits num den = 0 := by
  have hquot : num / den = 0 := Nat.div_eq_of_lt (by omega)
  simp only [nearestBits, Nat.pow_eq, hquot, Nat.log2_zero, Nat.zero_sub, pow_zero, Nat.mul_one,
    Nat.mod_eq_of_lt (show num < den by omega), Nat.zero_mul, Nat.zero_add]
  rw [if_neg (by omega)]
  exact Nat.min_eq_right (Nat.zero_le _)

/-- A number well below the greatest finite double stays finite. -/
theorem nearestBits_lt_infinityBits {num : Nat} (exponent : Nat) (hexponent : exponent ≤ 2000)
    (h : num < 2 ^ exponent) : nearestBits num 1 < infinityBits := by
  have hlog : num.log2 - 52 ≤ 1948 := by
    by_cases hzero : num = 0
    · simp [hzero]
    · have := (Nat.log2_lt hzero).2 h
      omega
  have hquot : num / 2 ^ (num.log2 - 52) < 2 ^ 54 := by
    rw [Nat.div_lt_iff_lt_mul (Nat.two_pow_pos _), ← pow_add]
    refine lt_of_lt_of_le (Nat.lt_log2_self (n := num)) (Nat.pow_le_pow_right (by norm_num) ?_)
    omega
  have hsum (carry : Nat) (hcarry : carry ≤ 1) :
      (num.log2 - 52) * 2 ^ 52 + (num / 2 ^ (num.log2 - 52) + carry) < infinityBits := by
    rw [infinityBits]
    omega
  simp only [nearestBits, Nat.pow_eq, Nat.div_one, Nat.one_mul]
  split
  · exact lt_of_le_of_lt (Nat.min_le_right ..) (hsum 1 (by norm_num))
  · exact lt_of_le_of_lt (Nat.min_le_right ..) (hsum 0 (by norm_num))

/-- Ten has more than three binary digits. -/
theorem two_pow_le_ten_pow {m n : Nat} (h : m ≤ 3 * n) : 2 ^ m ≤ 10 ^ n := by
  refine (Nat.pow_le_pow_right (by decide) h).trans ?_
  rw [pow_mul]
  exact Nat.pow_le_pow_left (by decide) n

/-- The settled far exponents round like all others: a decimal number goes to the double nearest
to the ratio it stands for. -/
theorem decimalBits_eq_nearestBits {digits : Nat} (hpos : 0 < digits) (exponent : Int) :
    decimalBits digits exponent =
      nearestBits (digits * 10 ^ exponent.toNat * 2 ^ 1074) (10 ^ (-exponent).toNat) := by
  simp only [decimalBits, Nat.pow_eq]
  rw [if_neg hpos.ne']
  by_cases hlarge : 400 < exponent
  · have hneg : (-exponent).toNat = 0 := by omega
    rw [if_pos hlarge, hneg, pow_zero]
    refine (nearestBits_of_large (3 * exponent.toNat + 1074) (by omega) ?_).symm
    rw [pow_add]
    apply Nat.mul_le_mul_right
    exact (two_pow_le_ten_pow le_rfl).trans (Nat.le_mul_of_pos_left _ hpos)
  rw [if_neg hlarge]
  by_cases hsmall : exponent + (Nat.toDigits 10 digits).length < -400
  · rw [if_pos hsmall]
    have hzero : exponent.toNat = 0 := by omega
    have hdigits : digits < 10 ^ (Nat.toDigits 10 digits).length :=
      (Nat.length_toDigits_le_iff (by norm_num) Nat.length_toDigits_pos).1 le_rfl
    generalize (Nat.toDigits 10 digits).length = count at hsmall hdigits
    obtain ⟨gap, hgap⟩ : ∃ gap : Nat, (-exponent).toNat = count + gap :=
      ⟨(-exponent).toNat - count, by omega⟩
    have hunit : 2 ^ 1074 * 2 ≤ 10 ^ gap := by
      rw [← pow_succ]
      exact two_pow_le_ten_pow (by omega)
    rw [hzero, pow_zero, Nat.mul_one, hgap, pow_add]
    refine (nearestBits_of_small ?_).symm
    generalize 2 ^ 1074 = unit at hunit
    calc 2 * (digits * unit) = digits * (unit * 2) := by ring
      _ ≤ digits * 10 ^ gap := Nat.mul_le_mul_left _ hunit
      _ < 10 ^ count * 10 ^ gap := Nat.mul_lt_mul_of_pos_right hdigits (by positivity)
  rw [if_neg hsmall]
  by_cases hsign : 0 ≤ exponent
  · have hneg : (-exponent).toNat = 0 := by omega
    rw [if_pos hsign, hneg, pow_zero]
  · have hzero : exponent.toNat = 0 := by omega
    rw [if_neg hsign, hzero, pow_zero, Nat.mul_one]

/-- Zeros at the end of a decimal number may be moved into its exponent. -/
theorem decimalBits_mul_pow (digits shift : Nat) (exponent : Int) :
    decimalBits (digits * 10 ^ shift) exponent = decimalBits digits (exponent + shift) := by
  by_cases hzero : digits = 0
  · simp [hzero, decimalBits]
  have hpos : 0 < digits := by omega
  rw [decimalBits_eq_nearestBits (Nat.mul_pos hpos (by positivity)),
    decimalBits_eq_nearestBits hpos]
  have hscale := nearestBits_mul_right (digits * 10 ^ (exponent + shift).toNat * 2 ^ 1074)
    (10 ^ (-(exponent + shift)).toNat)
    (k := 10 ^ ((-exponent).toNat - (-(exponent + shift)).toNat)) (by positivity)
  rw [← hscale, ← pow_add]
  have hden : (-(exponent + shift)).toNat + ((-exponent).toNat - (-(exponent + shift)).toNat) =
      (-exponent).toNat := by omega
  have hnum : shift + exponent.toNat =
      (exponent + shift).toNat + ((-exponent).toNat - (-(exponent + shift)).toNat) := by omega
  generalize 2 ^ 1074 = unit
  rw [hden]
  congr 1
  calc digits * 10 ^ shift * 10 ^ exponent.toNat * unit
      = digits * 10 ^ (shift + exponent.toNat) * unit := by rw [pow_add]; ring
    _ = _ := by rw [hnum, pow_add]; ring

/-- The exact expansion of a finite double, down to its least unit, reads back as it. -/
theorem decimalBits_expansion {magnitude : Nat} (h : magnitude < infinityBits) :
    decimalBits (units magnitude * 5 ^ 1074) (-(1074 : Nat)) = magnitude := by
  by_cases hzero : units magnitude = 0
  · have hself := nearestBits_units h
    rw [hzero, nearestBits_of_small (by decide)] at hself
    rw [hzero, Nat.zero_mul, decimalBits, if_pos rfl, hself]
  rw [decimalBits_eq_nearestBits (Nat.mul_pos (Nat.pos_of_ne_zero hzero) (Nat.pow_pos (by decide)))]
  generalize 1074 = unit
  rw [Int.toNat_neg_natCast, neg_neg, Int.toNat_natCast, pow_zero, Nat.mul_one, Nat.mul_assoc,
    ← Nat.mul_pow]
  have hscale := nearestBits_mul_right (units magnitude) 1 (k := 10 ^ unit) (by positivity)
  rw [Nat.one_mul] at hscale
  exact hscale.trans (nearestBits_units h)

/-- Sign and magnitude make up a double. -/
@[simp] theorem ofMagnitude_negative_magnitude (d : Double) :
    ofMagnitude d.negative d.magnitude = d := by
  obtain ⟨bits⟩ := d
  have hlt := bits.toNat_lt
  simp only [ofMagnitude, negative, magnitude, decide_eq_true_eq]
  congr 1
  apply UInt64.toNat_inj.1
  rw [UInt64.toNat_ofNat']
  split <;> omega

/-- The magnitude of a double is found again. -/
theorem magnitude_ofMagnitude (negative : Bool) {magnitude : Nat} (h : magnitude < 2 ^ 63) :
    (ofMagnitude negative magnitude).magnitude = magnitude := by
  simp only [ofMagnitude, Double.magnitude, UInt64.toNat_ofNat']
  split <;> omega

/-- The double nearest to a 64-bit integer is finite. -/
theorem isFinite_ofInt {i : Int} (h : i.natAbs ≤ 2 ^ 63) : (ofInt i).isFinite = true := by
  have hwidth : i.natAbs < 2 ^ 64 := by omega
  have hlt : nearestBits (i.natAbs * 2 ^ 1074) 1 < infinityBits := by
    refine nearestBits_lt_infinityBits (64 + 1074) (by decide) ?_
    generalize 1074 = unit
    rw [pow_add]
    exact Nat.mul_lt_mul_of_pos_right hwidth (Nat.two_pow_pos _)
  have hbound : infinityBits < 2 ^ 63 := by decide
  rw [isFinite, ofInt, Nat.pow_eq, magnitude_ofMagnitude _ (hlt.trans hbound)]
  exact decide_eq_true hlt

end GraphStore.Double
