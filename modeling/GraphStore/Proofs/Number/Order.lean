import GraphStore.Number.Double
import Mathlib.Order.Monotone.Basic
import Mathlib.Tactic.Ring

/-!
# Numeric order and the order of patterns

The total order of the patterns of doubles refines their numeric order: a smaller number has a
smaller place, and numbers are equal only for one pattern or for the two zeros. Where doubles
compare, the two orders therefore differ in nothing but the place of negative zero.
-/

namespace GraphStore.Double

/-- A greater pattern without sign is a greater number. -/
theorem units_strictMono : StrictMono units := by
  refine strictMono_nat_of_lt_succ fun m => ?_
  have hsplit := Nat.div_add_mod m 0x10000000000000
  have hmod := Nat.mod_lt m (show 0 < 0x10000000000000 by decide)
  simp only [units, Nat.pow_eq]
  by_cases hcarry : m % 0x10000000000000 + 1 < 0x10000000000000
  · have hexponent : (m + 1) / 0x10000000000000 = m / 0x10000000000000 := by omega
    have hfraction : (m + 1) % 0x10000000000000 = m % 0x10000000000000 + 1 := by omega
    rw [hexponent, hfraction]
    split
    · exact Nat.lt_succ_self _
    · exact Nat.mul_lt_mul_of_pos_right (Nat.lt_succ_self _) (Nat.two_pow_pos _)
  · have hexponent : (m + 1) / 0x10000000000000 = m / 0x10000000000000 + 1 := by omega
    have hfraction : (m + 1) % 0x10000000000000 = 0 := by omega
    rw [hexponent, hfraction, if_neg (Nat.succ_ne_zero _), Nat.add_sub_cancel]
    split
    · next hzero =>
      rw [hzero]
      omega
    · next hnormal =>
      obtain ⟨k, hk⟩ := Nat.exists_eq_succ_of_ne_zero hnormal
      rw [hk, Nat.succ_sub_one, pow_succ, ← Nat.mul_assoc, Nat.mul_right_comm]
      exact Nat.mul_lt_mul_of_pos_right (by omega) (Nat.two_pow_pos _)

/-- A pattern without sign is below the sign bit. -/
theorem magnitude_lt (d : Double) : d.magnitude < 0x8000000000000000 :=
  Nat.mod_lt _ (by decide)

/-- The bits of a pattern are its sign and its magnitude. -/
theorem toNat_bits (d : Double) :
    d.bits.toNat = if d.negative then 0x8000000000000000 + d.magnitude else d.magnitude := by
  have hlt := d.bits.toNat_lt
  simp only [negative, magnitude, decide_eq_true_eq]
  split <;> omega

/-- Patterns with one sign and one magnitude are the same. -/
theorem eq_of_magnitude {d e : Double} (hsign : d.negative = e.negative)
    (hmagnitude : d.magnitude = e.magnitude) : d = e := by
  have hbits : d.bits.toNat = e.bits.toNat := by
    rw [toNat_bits, toNat_bits, hsign, hmagnitude]
  exact congrArg mk (UInt64.toNat_inj.1 hbits)

/-- The place of a pattern in the total order, by its sign and magnitude. -/
theorem orderKey_eq (d : Double) :
    d.orderKey = if d.negative then 0x7fffffffffffffff - d.magnitude
      else 0x8000000000000000 + d.magnitude := by
  have hlt := d.magnitude_lt
  rw [orderKey, toNat_bits]
  split <;> omega

/-- A smaller number has a smaller place. -/
theorem orderKey_lt_of_scaled_lt {d e : Double} (h : d.scaled < e.scaled) :
    d.orderKey < e.orderKey := by
  have hd := d.magnitude_lt
  have he := e.magnitude_lt
  rw [scaled, scaled] at h
  rw [orderKey_eq, orderKey_eq]
  split at h <;> split at h
  · next hdneg heneg =>
    have hlt : e.magnitude < d.magnitude := units_strictMono.lt_iff_lt.1 (by omega)
    rw [if_pos hdneg, if_pos heneg]
    omega
  · next hdneg heneg =>
    rw [if_pos hdneg, if_neg heneg]
    omega
  · omega
  · next hdpos hepos =>
    have hlt : d.magnitude < e.magnitude := units_strictMono.lt_iff_lt.1 (by omega)
    rw [if_neg hdpos, if_neg hepos]
    omega

/-- Patterns of equal numbers are the same, or zeros. -/
theorem eq_or_isZero_of_scaled_eq {d e : Double} (h : d.scaled = e.scaled) :
    d = e ∨ d.isZero = true ∧ e.isZero = true := by
  by_cases hsign : d.negative = e.negative
  · left
    refine eq_of_magnitude hsign (units_strictMono.injective ?_)
    simp only [scaled, hsign] at h
    split at h <;> omega
  · right
    have hzero : units 0 = 0 := by decide
    have hunits : units d.magnitude = 0 ∧ units e.magnitude = 0 := by
      simp only [scaled] at h
      cases hd : d.negative <;> cases he : e.negative <;> rw [hd, he] at h hsign <;>
        simp only [if_true, if_false, Bool.false_eq_true, not_true_eq_false] at h hsign <;> omega
    simp only [isZero, decide_eq_true_eq]
    exact ⟨units_strictMono.injective (hunits.1.trans hzero.symm),
      units_strictMono.injective (hunits.2.trans hzero.symm)⟩

/-- A place belongs to one pattern. -/
theorem orderKey_injective : Function.Injective orderKey :=
  Function.LeftInverse.injective ofOrderKey_orderKey

/-- Zero without a sign. -/
def positiveZero : Double := ⟨0⟩

/-- Zero with a sign. -/
def negativeZero : Double := ⟨0x8000000000000000⟩

variable {x d low high : Double}

/-- There are two zeros. -/
theorem isZero_iff : d.isZero = true ↔ d = positiveZero ∨ d = negativeZero := by
  constructor
  · intro h
    have hmagnitude : d.magnitude = 0 := of_decide_eq_true h
    cases hsign : d.negative with
    | false => exact .inl (eq_of_magnitude (hsign.trans (by decide)) (hmagnitude.trans (by decide)))
    | true => exact .inr (eq_of_magnitude (hsign.trans (by decide)) (hmagnitude.trans (by decide)))
  · rintro (rfl | rfl) <;> decide

/-- Doubles that compare are ordered as their numbers. -/
theorem compare?_eq_some {ordering : Ordering} (h : x.compare? d = some ordering) :
    compare x.scaled d.scaled = ordering := by
  unfold compare? at h
  split at h
  · cases h
  · exact Option.some.inj h

/-- Equal numbers are the same double or different zeros. -/
theorem eq_iff_of_compare?_eq (h : x.compare? d = some .eq) :
    x = d ↔ ¬ (x.isZero = true ∧ d.isZero = true ∧ x ≠ d) := by
  have hscaled : x.scaled = d.scaled := compare_eq_iff_eq.1 (compare?_eq_some h)
  constructor
  · rintro rfl ⟨-, -, hne⟩
    exact hne rfl
  · intro hzeros
    by_contra hne
    rcases eq_or_isZero_of_scaled_eq hscaled with heq | ⟨hx, hd⟩
    · exact hne heq
    · exact hzeros ⟨hx, hd, hne⟩

/-- A number below another has its place below. -/
theorem orderKey_lt_of_compare?_lt (h : x.compare? high = some .lt) : x.orderKey < high.orderKey :=
  orderKey_lt_of_scaled_lt (compare_lt_iff_lt.1 (compare?_eq_some h))

/-- A number at or above another has its place at or above, unless these are the negative and the
positive zero. -/
theorem orderKey_le_iff_of_compare? (h : x.compare? low = some .eq ∨ x.compare? low = some .gt) :
    low.orderKey ≤ x.orderKey ↔ ¬ (low = positiveZero ∧ x = negativeZero) := by
  constructor
  · rintro hle ⟨rfl, rfl⟩
    exact absurd hle (by decide)
  · intro hzeros
    rcases h with heq | hgt
    · by_cases hsame : x = low
      · rw [hsame]
      rcases eq_or_isZero_of_scaled_eq (compare_eq_iff_eq.1 (compare?_eq_some heq)) with
        heq | ⟨hx, hlow⟩
      · exact absurd heq hsame
      rcases isZero_iff.1 hx with rfl | rfl <;> rcases isZero_iff.1 hlow with rfl | rfl
      · exact absurd rfl hsame
      · decide
      · exact absurd ⟨rfl, rfl⟩ hzeros
      · exact absurd rfl hsame
    · exact Nat.le_of_lt (orderKey_lt_of_scaled_lt (compare_gt_iff_gt.1 (compare?_eq_some hgt)))

end GraphStore.Double
