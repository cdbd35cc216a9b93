import GraphStore.Proofs.Number.Monotone
import GraphStore.Schema.Value

/-!
# The order of values

Turning a comparison round turns its outcome round. Values one below the other are in order, save
that integers are compared exactly with each other and through their nearest doubles with doubles:
a double is equal to every integer that rounds to it, so between two such integers it says nothing
of their order.
-/

namespace GraphStore

namespace Double

variable {x y : Double} {o : Ordering}

/-- Doubles that compare are numbers. -/
theorem isNaN_of_compare? (h : x.compare? y = some o) : x.isNaN = false ∧ y.isNaN = false := by
  unfold compare? at h
  split at h
  · cases h
  · next hnan => exact Bool.or_eq_false_iff.1 (Bool.eq_false_iff.2 hnan)

/-- Numbers compare. -/
theorem compare?_of_isNaN (hx : x.isNaN = false) (hy : y.isNaN = false) :
    x.compare? y = some (compare x.scaled y.scaled) := by
  rw [compare?, hx, hy]
  rfl

/-- Turning a comparison of doubles round turns its outcome round. -/
theorem compare?_swap (x y : Double) : y.compare? x = (x.compare? y).map Ordering.swap := by
  unfold compare?
  rw [Bool.or_comm]
  split
  · rfl
  · exact congrArg some Std.OrientedCmp.eq_swap

end Double

namespace Value

variable {a b c : Value} {o o' : Ordering} {x y : Double}

/-- Turning a comparison round turns its outcome round. -/
theorem compare?_swap (a b : Value) : b.compare? a = (a.compare? b).map Ordering.swap := by
  cases a <;> cases b <;>
    first
      | rfl
      | exact Double.compare?_swap _ _
      | exact congrArg some Std.OrientedCmp.eq_swap

/-- The double that a number is compared with doubles as. -/
def double? : Value → Option Double
  | float d => some d
  | int i => some (Double.ofInt i.toInt)
  | _ => none

/-- A double compares with a number as with its double. -/
theorem compare?_of_double? {value : Value} {d : Double} (h : value.double? = some d) :
    (float x).compare? value = x.compare? d := by
  cases value <;> cases h <;> rfl

/-- Unless both are integers, numbers compare as their doubles. -/
theorem compare?_of_doubles (ha : a.double? = some x) (hb : b.double? = some y)
    (hboth : ∀ i k, a = int i → b ≠ int k) : a.compare? b = x.compare? y := by
  cases a with
  | float d =>
    cases ha
    exact compare?_of_double? hb
  | int i =>
    cases ha
    cases b with
    | int k => exact absurd rfl (hboth i k rfl)
    | float e =>
      cases hb
      rfl
    | _ => cases hb
  | _ => cases ha

/-- What compares with a number is a number. -/
theorem exists_double? (h : a.compare? b = some o) (ha : a.double? = some x) :
    ∃ y, b.double? = some y := by
  cases b with
  | int k => exact ⟨_, rfl⟩
  | float e => exact ⟨_, rfl⟩
  | _ =>
    cases a with
    | int i => cases h
    | float d => cases h
    | _ => cases ha

/-- A number that compares is no NaN. -/
theorem isNaN_of_compare? (h : a.compare? b = some o) (ha : a.double? = some x) :
    x.isNaN = false := by
  cases a with
  | int i =>
    cases ha
    exact Double.isNaN_ofInt _
  | float d =>
    cases ha
    obtain ⟨y, hy⟩ := exists_double? h rfl
    exact (Double.isNaN_of_compare? ((compare?_of_double? hy).symm.trans h)).1
  | _ => cases ha

/-- Doubles are in the order in which their numbers compare. -/
theorem scaled_le_of_compare? (h : a.compare? b = some o) (ho : o.isLE = true)
    (ha : a.double? = some x) (hb : b.double? = some y) : x.scaled ≤ y.scaled := by
  by_cases hboth : ∃ i k, a = int i ∧ b = int k
  · obtain ⟨i, k, rfl, rfl⟩ := hboth
    cases ha
    cases hb
    have hle : i ≤ k := Std.isLE_compare.1 (Option.some.inj h ▸ ho)
    exact Double.scaled_ofInt_mono (Int64.le_iff_toInt_le.1 hle)
  · have hcompare := compare?_of_doubles ha hb fun i k hi hk => hboth ⟨i, k, hi, hk⟩
    rw [hcompare] at h
    rw [← Double.compare?_eq_some h] at ho
    exact Std.isLE_compare.1 ho

/-- A double that two integers round to, whatever the sign of zero. -/
def Merges (d : Double) (i k : Int64) : Prop :=
  (Double.ofInt i.toInt).scaled = d.scaled ∧ (Double.ofInt k.toInt).scaled = d.scaled

/-- The order is transitive on values that are no numbers. -/
theorem isLE_trans_of_none (hab : a.compare? b = some o) (hbc : b.compare? c = some o')
    (ho : o.isLE = true) (ho' : o'.isLE = true) (ha : a.double? = none) :
    ∃ r, a.compare? c = some r ∧ r.isLE = true := by
  cases a with
  | null => cases b <;> cases hab
  | int i => cases ha
  | float d => cases ha
  | bool s =>
    cases b with
    | bool t =>
      cases c with
      | bool u =>
        cases hab
        cases hbc
        exact ⟨_, rfl, Std.TransCmp.isLE_trans ho ho'⟩
      | _ => cases hbc
    | _ => cases hab
  | str s =>
    cases b with
    | str t =>
      cases c with
      | str u =>
        cases hab
        cases hbc
        exact ⟨_, rfl, Std.TransCmp.isLE_trans ho ho'⟩
      | _ => cases hbc
    | _ => cases hab

/-- Integers with a value between them are in order, unless the value merges them. -/
theorem le_of_between {i k : Int64} (hib : (int i).compare? b = some o)
    (hbk : b.compare? (int k) = some o') (ho : o.isLE = true) (ho' : o'.isLE = true)
    (hmerged : ∀ d, b = float d → Merges d i k → i ≤ k) : i ≤ k := by
  cases b with
  | int j =>
    have hij : i ≤ j := Std.isLE_compare.1 (Option.some.inj hib ▸ ho)
    have hjk : j ≤ k := Std.isLE_compare.1 (Option.some.inj hbk ▸ ho')
    exact Int64.le_trans hij hjk
  | float d =>
    by_contra hle
    have hki : k ≤ i := (Int64.le_total i k).resolve_left hle
    have hin := scaled_le_of_compare? hib ho rfl rfl
    have hnk := scaled_le_of_compare? hbk ho' rfl rfl
    have hrounded := Double.scaled_ofInt_mono (Int64.le_iff_toInt_le.1 hki)
    -- Rounding keeps the order, so both integers round to the number in between.
    have hmerges : Merges d i k :=
      ⟨le_antisymm hin (hnk.trans hrounded), le_antisymm (hrounded.trans hin) hnk⟩
    exact hle (hmerged d rfl hmerges)
  | _ => cases hib

/-- The order is transitive, unless a double between two integers merges them. -/
theorem isLE_trans (hab : a.compare? b = some o) (hbc : b.compare? c = some o')
    (ho : o.isLE = true) (ho' : o'.isLE = true)
    (hmerged : ∀ i d k, a = int i → b = float d → c = int k → Merges d i k → i ≤ k) :
    ∃ r, a.compare? c = some r ∧ r.isLE = true := by
  cases ha : a.double? with
  | none => exact isLE_trans_of_none hab hbc ho ho' ha
  | some x =>
    by_cases hboth : ∃ i k, a = int i ∧ c = int k
    · obtain ⟨i, k, rfl, rfl⟩ := hboth
      have hle := le_of_between hab hbc ho ho' fun d hd => hmerged i d k rfl hd rfl
      exact ⟨_, rfl, Std.isLE_compare.2 hle⟩
    · obtain ⟨y, hb⟩ := exists_double? hab ha
      obtain ⟨z, hc⟩ := exists_double? hbc hb
      have hxz := (scaled_le_of_compare? hab ho ha hb).trans (scaled_le_of_compare? hbc ho' hb hc)
      have hcb : c.compare? b = some o'.swap := by rw [compare?_swap, hbc]; rfl
      have hcompare := compare?_of_doubles ha hc fun i k hi hk => hboth ⟨i, k, hi, hk⟩
      rw [Double.compare?_of_isNaN (isNaN_of_compare? hab ha) (isNaN_of_compare? hcb hc)] at hcompare
      exact ⟨_, hcompare, Std.isLE_compare.2 hxz⟩

/-- Equality is transitive, unless a double between two integers merges them. -/
theorem eq_trans (hab : a.compare? b = some .eq) (hbc : b.compare? c = some .eq)
    (hmerged : ∀ i d k, a = int i → b = float d → c = int k → i = k) :
    a.compare? c = some .eq := by
  have hba : b.compare? a = some .eq := by rw [compare?_swap, hab]; rfl
  have hcb : c.compare? b = some .eq := by rw [compare?_swap, hbc]; rfl
  obtain ⟨r, hac, hr⟩ := isLE_trans hab hbc rfl rfl fun i d k hi hd hk _ =>
    Int64.le_of_eq (hmerged i d k hi hd hk)
  obtain ⟨s, hca, hs⟩ := isLE_trans hcb hba rfl rfl fun k d i hk hd hi _ =>
    Int64.le_of_eq (hmerged i d k hi hd hk).symm
  rw [compare?_swap, hac] at hca
  cases r with
  | lt => cases hca; cases hs
  | eq => exact hac
  | gt => cases hr

/-- The order of values is consistent as far as doubles tell integers apart. A comparison turned
round has its outcome turned round. Of three values each at most the next, the first is at most the
last, unless these are integers in descending order that both round to a double in between; and if
each equals the next, the first equals the last, unless these are different integers about a
double. -/
theorem compare?_consistent (a b c : Value) :
    b.compare? a = (a.compare? b).map Ordering.swap ∧
      ∀ o o', a.compare? b = some o → b.compare? c = some o' → o.isLE = true → o'.isLE = true →
        ((∃ r, a.compare? c = some r ∧ r.isLE = true) ↔
          ∀ i d k, a = int i → b = float d → c = int k → Merges d i k → i ≤ k) ∧
        (o = .eq → o' = .eq → (a.compare? c = some .eq ↔
          ∀ i d k, a = int i → b = float d → c = int k → i = k)) := by
  refine ⟨compare?_swap a b, fun o o' hab hbc ho ho' => ⟨⟨?_, ?_⟩, ?_⟩⟩
  · rintro ⟨r, hac, hr⟩ i d k rfl rfl rfl -
    exact Std.isLE_compare.1 (Option.some.inj hac ▸ hr)
  · exact isLE_trans hab hbc ho ho'
  · rintro rfl rfl
    refine ⟨?_, eq_trans hab hbc⟩
    rintro hac i d k rfl rfl rfl
    exact Std.LawfulEqCmp.eq_of_compare (Option.some.inj hac)

/-- A double between two integers that it merges in the right order: they are in order, though not
equal as each is to the double. -/
theorem compare?_consistent_of_merged :
    let a := int 9007199254740992
    let b := float ⟨0x4340000000000000⟩
    let c := int 9007199254740993
    a.compare? b = some .eq ∧ b.compare? c = some .eq ∧
      (∃ r, a.compare? c = some r ∧ r.isLE = true) ∧ a.compare? c ≠ some .eq ∧
      b.compare? a = some .eq := by
  intro a b c
  have hab : a.compare? b = some .eq := by decide +kernel
  have hbc : b.compare? c = some .eq := by decide +kernel
  obtain ⟨hswap, hall⟩ := compare?_consistent a b c
  obtain ⟨hle, hequal⟩ := hall .eq .eq hab hbc rfl rfl
  refine ⟨hab, hbc, hle.2 ?_, fun hac => ?_, by rw [hswap, hab]; rfl⟩
  · intro i d k hi _ hk _
    rw [← Value.int.inj hi, ← Value.int.inj hk]
    decide
  · exact absurd ((hequal rfl rfl).1 hac _ _ _ rfl rfl rfl) (by decide)

/-- The order is not transitive where a double merges integers in the wrong order. -/
theorem compare?_eq_gt_of_merged :
    let a := int 9007199254740993
    let b := float ⟨0x4340000000000000⟩
    let c := int 9007199254740992
    (Double.isNaN ⟨0x4340000000000000⟩ = false) ∧ a.compare? b = some .eq ∧
      b.compare? c = some .eq ∧ a.compare? c = some .gt := by
  decide +kernel

end Value

end GraphStore
