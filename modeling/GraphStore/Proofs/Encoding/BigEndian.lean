import GraphStore.Encoding.Bytes
import Mathlib.Data.List.Basic
import Mathlib.Tactic.Ring

/-!
# Big-endian numbers read back

A number of fixed width is found again in its bytes up to the bits that the width cuts off.
-/

namespace GraphStore.Bytes

/-- Reading goes on from the number read so far. -/
theorem foldl_eq_add (bytes : Bytes) (n : Nat) :
    bytes.foldl (fun n byte => n * 256 + byte.toNat) n =
      n * 256 ^ bytes.length + toNat bytes := by
  induction bytes generalizing n with
  | nil => simp [toNat]
  | cons byte bytes ih =>
    rw [toNat, List.foldl_cons, List.foldl_cons, ih, ih (0 * 256 + byte.toNat)]
    simp only [List.length_cons, pow_succ, Nat.zero_mul, Nat.zero_add]
    ring

/-- The first byte counts most. -/
theorem toNat_cons (byte : UInt8) (bytes : Bytes) :
    toNat (byte :: bytes) = byte.toNat * 256 ^ bytes.length + toNat bytes := by
  rw [toNat, List.foldl_cons, foldl_eq_add]
  simp

/-- A number is found again in its bytes, less what the width cuts off. -/
@[simp] theorem toNat_bigEndian (width n : Nat) : toNat (bigEndian width n) = n % 256 ^ width := by
  induction width with
  | zero => simp [bigEndian, toNat, Nat.mod_one]
  | succ width ih =>
    have hbyte : (UInt8.ofNat (n / 256 ^ width % 256)).toNat = n / 256 ^ width % 256 := by
      simp
    rw [bigEndian, Nat.pow_eq, toNat_cons, ih, length_bigEndian, hbyte, pow_succ, Nat.mod_mul,
      Nat.mul_comm, Nat.add_comm]

end GraphStore.Bytes
