import GraphStore.Key.Basic
import GraphStore.Storage.Partition
import Mathlib.Data.List.Infix
import Mathlib.Data.List.TakeWhile

/-!
# Ranges of keys with a common stem

The keys at or above a stem and below its upper bound are those that begin with the stem, and
between two extensions of a stem there are only keys that begin with it.
-/

namespace GraphStore

namespace Bytes

/-- Byte strings are compared by their first bytes, then by the rest. -/
theorem compare_cons (a b : UInt8) (s t : Bytes) :
    compare (a :: s) (b :: t) = (compare a b).then (compare s t) :=
  List.compare_cons_cons

/-- Below a string with the same first byte. -/
theorem isLT_compare_cons {a b : UInt8} {s t : Bytes} :
    (compare (a :: s) (b :: t)).isLT = true ↔ a < b ∨ a = b ∧ (compare s t).isLT = true := by
  rw [compare_cons]
  cases h : compare a b with
  | lt => simp [Std.compare_eq_lt.1 h]
  | eq =>
    obtain rfl := Std.LawfulEqCmp.eq_of_compare h
    simp
  | gt =>
    have hgt : b < a := Std.compare_eq_gt.1 h
    simp only [Ordering.then, Ordering.isLT]
    constructor
    · nofun
    · rintro (hlt | ⟨rfl, -⟩)
      · exact absurd (UInt8.lt_trans hgt hlt) (UInt8.lt_irrefl _)
      · exact absurd hgt (UInt8.lt_irrefl _)

/-- At most a string with the same first byte. -/
theorem isLE_compare_cons {a b : UInt8} {s t : Bytes} :
    (compare (a :: s) (b :: t)).isLE = true ↔ a < b ∨ a = b ∧ (compare s t).isLE = true := by
  rw [compare_cons]
  cases h : compare a b with
  | lt => simp [Std.compare_eq_lt.1 h]
  | eq =>
    obtain rfl := Std.LawfulEqCmp.eq_of_compare h
    simp
  | gt =>
    have hgt : b < a := Std.compare_eq_gt.1 h
    simp only [Ordering.then, Ordering.isLE]
    constructor
    · nofun
    · rintro (hlt | ⟨rfl, -⟩)
      · exact absurd (UInt8.lt_trans hgt hlt) (UInt8.lt_irrefl _)
      · exact absurd hgt (UInt8.lt_irrefl _)

end Bytes

namespace Partition

open Bytes

/-- Between two extensions of a stem there are only extensions of it. -/
theorem prefix_of_within {stem low high key : Bytes}
    (h : within (stem ++ low) (stem ++ high) key = true) : stem <+: key := by
  induction stem generalizing key with
  | nil => exact List.nil_prefix
  | cons byte stem ih =>
    obtain ⟨hlow, hhigh⟩ := Bool.and_eq_true_iff.1 h
    cases key with
    | nil => cases hlow
    | cons first key =>
      rcases isLE_compare_cons.1 hlow with hlt | ⟨rfl, hrestLow⟩
      · rcases isLT_compare_cons.1 hhigh with hgt | ⟨rfl, -⟩
        · exact absurd (UInt8.lt_trans hlt hgt) (UInt8.lt_irrefl _)
        · exact absurd hlt (UInt8.lt_irrefl _)
      · rcases isLT_compare_cons.1 hhigh with hgt | ⟨-, hrestHigh⟩
        · exact absurd hgt (UInt8.lt_irrefl _)
        · exact (List.prefix_cons_inj byte).2 (ih (Bool.and_eq_true_iff.2 ⟨hrestLow, hrestHigh⟩))

end Partition

namespace Key

open Bytes

/-- A byte in front of a stem stays in front of its upper bound. -/
theorem upperBound_cons (byte : UInt8) {stem : Bytes} (h : ∃ b ∈ stem, b ≠ 0xff) :
    upperBound (byte :: stem) = byte :: upperBound stem := by
  obtain ⟨b, hb, hne⟩ := h
  have hdrop : stem.reverse.dropWhile (· == 0xff) ≠ [] := by
    intro hnil
    have hall := List.dropWhile_eq_nil_iff.1 hnil b (List.mem_reverse.2 hb)
    exact hne (eq_of_beq hall)
  unfold upperBound
  rw [List.reverse_cons, List.dropWhile_append]
  cases hrest : stem.reverse.dropWhile (· == 0xff) with
  | nil => exact absurd hrest hdrop
  | cons last front => simp

/-- The last byte below 0xff is raised. -/
theorem upperBound_singleton (byte : UInt8) (hne : byte ≠ 0xff) (count : Nat) :
    upperBound (byte :: List.replicate count 0xff) = [byte + 1] := by
  unfold upperBound
  rw [List.reverse_cons, List.reverse_replicate, List.dropWhile_append_of_pos]
  · simp [hne]
  · intro b hb
    simp [(List.mem_replicate.1 hb).2]

/-- At or above bytes 0xff are only strings that begin with them. -/
theorem replicate_isLE_iff (count : Nat) (key : Bytes) :
    (compare (List.replicate count (0xff : UInt8)) key).isLE = true ↔
      List.replicate count (0xff : UInt8) <+: key := by
  induction count generalizing key with
  | zero => cases key <;> simp [List.compare_nil_cons]
  | succ count ih =>
    cases key with
    | nil => simp [List.replicate_succ, List.compare_cons_nil]
    | cons first key =>
      rw [List.replicate_succ, isLE_compare_cons, ih, List.cons_prefix_cons]
      constructor
      · rintro (hlt | h)
        · exact absurd hlt (by simp [UInt8.lt_iff_toNat_lt]; have := first.toNat_lt; omega)
        · exact h
      · exact fun h => .inr h

/-- The keys at or above a stem and below its upper bound are those that begin with it. -/
theorem within_upperBound_iff {stem : Bytes} (hstem : ∃ b ∈ stem, b ≠ 0xff) (key : Bytes) :
    Partition.within stem (upperBound stem) key = true ↔ stem <+: key := by
  induction stem generalizing key with
  | nil => simp at hstem
  | cons byte stem ih =>
    rw [Partition.within, Bool.and_eq_true]
    by_cases hrest : ∃ b ∈ stem, b ≠ 0xff
    · rw [upperBound_cons byte hrest]
      cases key with
      | nil => simp [List.compare_cons_nil]
      | cons first key =>
        rw [isLE_compare_cons, isLT_compare_cons, List.cons_prefix_cons, ← ih hrest,
          Partition.within, Bool.and_eq_true]
        constructor
        · rintro ⟨hlt | ⟨rfl, hlow⟩, hgt | ⟨heq, hhigh⟩⟩
          · exact absurd (UInt8.lt_trans hlt hgt) (UInt8.lt_irrefl _)
          · exact absurd (heq ▸ hlt) (UInt8.lt_irrefl _)
          · exact absurd hgt (UInt8.lt_irrefl _)
          · exact ⟨rfl, hlow, hhigh⟩
        · rintro ⟨rfl, hlow, hhigh⟩
          exact ⟨.inr ⟨rfl, hlow⟩, .inr ⟨rfl, hhigh⟩⟩
    · have hall : stem = List.replicate stem.length 0xff := by
        apply List.eq_replicate_of_mem
        intro b hb
        by_contra hne
        exact hrest ⟨b, hb, hne⟩
      have hbyte : byte ≠ 0xff := by
        obtain ⟨b, hb, hne⟩ := hstem
        rcases List.mem_cons.1 hb with rfl | hb
        · exact hne
        · exact absurd ⟨b, hb, hne⟩ hrest
      have hraised : (byte + 1).toNat = byte.toNat + 1 := by
        have hlt := byte.toNat_lt
        have hne : byte.toNat ≠ 255 := fun h => hbyte (UInt8.toNat_inj.1 h)
        rw [UInt8.toNat_add]
        simp
        omega
      rw [hall, upperBound_singleton byte hbyte]
      cases key with
      | nil => simp [List.compare_cons_nil]
      | cons first key =>
        rw [isLE_compare_cons, isLT_compare_cons, List.cons_prefix_cons, replicate_isLE_iff]
        have hnil : (compare key ([] : Bytes)).isLT = false := by
          cases key <;> simp [List.compare_cons_nil]
        rw [hnil]
        simp only [UInt8.lt_iff_toNat_lt, hraised]
        constructor
        · rintro ⟨hlt | ⟨rfl, hlow⟩, hgt | ⟨-, hfalse⟩⟩
          · omega
          · cases hfalse
          · exact ⟨rfl, hlow⟩
          · cases hfalse
        · rintro ⟨rfl, hlow⟩
          exact ⟨.inr ⟨rfl, hlow⟩, .inl (Nat.lt_succ_self _)⟩

end Key

end GraphStore
