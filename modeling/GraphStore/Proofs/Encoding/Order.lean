import GraphStore.Proofs.Encoding.BigEndian
import GraphStore.Proofs.Encoding.Utf8
import GraphStore.Proofs.Key.Prefix
import Mathlib.Data.String.Basic

/-!
# Byte order of numbers and text

Byte strings of one length are ordered as the numbers they spell, so big-endian numbers are in
numeric order. The bytes of a character are ordered as its code point, whatever follows them, so
texts are ordered by their characters.
-/

namespace GraphStore

namespace Bytes

/-- Fronts of one length are compared first, then what follows them. -/
theorem compare_append {s t : Bytes} (h : s.length = t.length) (u v : Bytes) :
    compare (s ++ u) (t ++ v) = (compare s t).then (compare u v) := by
  induction s generalizing t with
  | nil =>
    rw [List.length_eq_zero_iff.1 h.symm]
    rfl
  | cons a s ih =>
    cases t with
    | nil => cases h
    | cons b t =>
      rw [List.cons_append, List.cons_append, compare_cons, compare_cons, ih (Nat.succ.inj h),
        Ordering.then_assoc]

/-- A common front does not matter. -/
@[simp] theorem compare_append_left (s u v : Bytes) : compare (s ++ u) (s ++ v) = compare u v := by
  have hself : compare s s = .eq := Std.ReflCmp.compare_self
  rw [compare_append rfl, hself]
  rfl

/-- A string stays at most another when that goes on. -/
theorem isLE_append {s t : Bytes} (h : (compare s t).isLE = true) (u : Bytes) :
    (compare s (t ++ u)).isLE = true := by
  induction s generalizing t with
  | nil => cases t ++ u <;> simp [List.compare_nil_cons]
  | cons a s ih =>
    cases t with
    | nil => cases h
    | cons b t =>
      rw [List.cons_append, isLE_compare_cons]
      exact (isLE_compare_cons.1 h).imp_right fun ⟨heq, hrest⟩ => ⟨heq, ih hrest⟩

/-- A byte string spells a number below the power of its length. -/
theorem toNat_lt (s : Bytes) : s.toNat < 256 ^ s.length := by
  induction s with
  | nil => simp [toNat]
  | cons byte s ih =>
    have hbyte := byte.toNat_lt
    have hstep : byte.toNat * 256 ^ s.length + 256 ^ s.length ≤ 256 * 256 ^ s.length := by
      rw [← Nat.succ_mul]
      exact Nat.mul_le_mul_right _ hbyte
    rw [toNat_cons, List.length_cons, pow_succ]
    omega

/-- Byte strings of one length are ordered as their numbers. -/
theorem compare_eq_compare_toNat {s t : Bytes} (h : s.length = t.length) :
    compare s t = compare s.toNat t.toNat := by
  induction s generalizing t with
  | nil =>
    rw [List.length_eq_zero_iff.1 h.symm]
    rfl
  | cons a s ih =>
    cases t with
    | nil => cases h
    | cons b t =>
      have hlength : s.length = t.length := Nat.succ.inj h
      have hs := toNat_lt s
      have ht := toNat_lt t
      rw [compare_cons, ih hlength, toNat_cons, toNat_cons]
      rw [hlength] at hs ⊢
      generalize 256 ^ t.length = width at hs ht ⊢
      have hstep {m n : Nat} (hlt : m < n) : m * width + width ≤ n * width := by
        rw [← Nat.succ_mul]
        exact Nat.mul_le_mul_right width hlt
      cases hab : compare a b with
      | lt =>
        have hlt : a < b := Std.compare_eq_lt.1 hab
        have hfirst := hstep (UInt8.lt_iff_toNat_lt.1 hlt)
        exact (Nat.compare_eq_lt.2 (by omega)).symm
      | eq =>
        obtain rfl := Std.LawfulEqCmp.eq_of_compare hab
        simp [Nat.compare_eq_ite_lt]
      | gt =>
        have hgt : b < a := Std.compare_eq_gt.1 hab
        have hfirst := hstep (UInt8.lt_iff_toNat_lt.1 hgt)
        exact (Nat.compare_eq_gt.2 (by omega)).symm

/-- Byte strings of one length are told apart by their numbers. -/
theorem toNat_inj {s t : Bytes} (hlength : s.length = t.length) (h : s.toNat = t.toNat) : s = t := by
  have hcompare : compare s t = .eq := by
    rw [compare_eq_compare_toNat hlength, h]
    exact Std.ReflCmp.compare_self
  exact Std.LawfulEqCmp.eq_of_compare hcompare

/-- A byte string is found again in the number that it spells. -/
theorem bigEndian_toNat (bytes : Bytes) : bigEndian bytes.length bytes.toNat = bytes := by
  refine toNat_inj (length_bigEndian ..) ?_
  rw [toNat_bigEndian, Nat.mod_eq_of_lt (toNat_lt bytes)]

/-- Numbers within the width are ordered as their bytes. -/
theorem compare_bigEndian {width m n : Nat} (hm : m < 256 ^ width) (hn : n < 256 ^ width) :
    compare (bigEndian width m) (bigEndian width n) = compare m n := by
  rw [compare_eq_compare_toNat (by simp), toNat_bigEndian, toNat_bigEndian, Nat.mod_eq_of_lt hm,
    Nat.mod_eq_of_lt hn]

end Bytes

namespace Utf8

open Bytes

/-- A smaller first byte decides. -/
theorem isLT_ofNat_cons {m n : Nat} (hlt : m < n) (hn : n < 256) (s t : Bytes) :
    (compare (UInt8.ofNat m :: s) (UInt8.ofNat n :: t)).isLT = true := by
  rw [isLT_compare_cons, UInt8.lt_iff_toNat_lt, toNat_ofNat_of_lt hn, toNat_ofNat_of_lt (by omega)]
  exact .inl hlt

/-- Among fronts of one length the smaller number decides. -/
theorem isLT_append_of_toNat {s t : Bytes} (hlength : s.length = t.length)
    (h : s.toNat < t.toNat) (u v : Bytes) : (compare (s ++ u) (t ++ v)).isLT = true := by
  rw [compare_append hlength, compare_eq_compare_toNat hlength, Nat.compare_eq_lt.2 h]
  rfl

/-- Of two numbers in base 64 the first differing of the four digits decides, the first one being
what is left. -/
theorem digits_lt {m n : Nat} (h : m < n) :
    m / 262144 < n / 262144 ∨ m / 262144 = n / 262144 ∧
      (m / 4096 % 64 < n / 4096 % 64 ∨ m / 4096 % 64 = n / 4096 % 64 ∧
        (m / 64 % 64 < n / 64 % 64 ∨ m / 64 % 64 = n / 64 % 64 ∧ m % 64 < n % 64)) := by
  omega

/-- The bytes of a character lie below those of every greater one, whatever follows them: a longer
form has a greater first byte, and forms of one length spell their code points. -/
theorem isLT_encodeChar {c d : Char} (h : c < d) (s t : Bytes) :
    (compare (String.utf8EncodeChar c ++ s) (String.utf8EncodeChar d ++ t)).isLT = true := by
  obtain ⟨hd, -⟩ := char_bounds d
  have hlt : c.val.toNat < d.val.toNat := h
  simp only [String.utf8EncodeChar]
  generalize c.val.toNat = v at hlt ⊢
  generalize d.val.toNat = w at hd hlt ⊢
  by_cases hw1 : w ≤ 0x7f
  · rw [if_pos hw1, if_pos (show v ≤ 0x7f by omega)]
    exact isLT_ofNat_cons hlt (by omega) ..
  rw [if_neg hw1]
  by_cases hw2 : w ≤ 0x7ff
  · rw [if_pos hw2]
    by_cases hv1 : v ≤ 0x7f
    · rw [if_pos hv1]
      exact isLT_ofNat_cons (by omega) (by omega) ..
    rw [if_neg hv1, if_pos (show v ≤ 0x7ff by omega)]
    refine isLT_append_of_toNat (by rfl) ?_ s t
    simp only [Bytes.toNat, List.foldl_cons, List.foldl_nil]
    repeat rw [toNat_ofNat_of_lt (by omega)]
    omega
  rw [if_neg hw2]
  by_cases hw3 : w ≤ 0xffff
  · rw [if_pos hw3]
    by_cases hv1 : v ≤ 0x7f
    · rw [if_pos hv1]
      exact isLT_ofNat_cons (by omega) (by omega) ..
    rw [if_neg hv1]
    by_cases hv2 : v ≤ 0x7ff
    · rw [if_pos hv2]
      exact isLT_ofNat_cons (by omega) (by omega) ..
    rw [if_neg hv2, if_pos (show v ≤ 0xffff by omega)]
    refine isLT_append_of_toNat (by rfl) ?_ s t
    simp only [Bytes.toNat, List.foldl_cons, List.foldl_nil]
    repeat rw [toNat_ofNat_of_lt (by omega)]
    omega
  rw [if_neg hw3]
  by_cases hv1 : v ≤ 0x7f
  · rw [if_pos hv1]
    exact isLT_ofNat_cons (by omega) (by omega) ..
  rw [if_neg hv1]
  by_cases hv2 : v ≤ 0x7ff
  · rw [if_pos hv2]
    exact isLT_ofNat_cons (by omega) (by omega) ..
  rw [if_neg hv2]
  by_cases hv3 : v ≤ 0xffff
  · rw [if_pos hv3]
    exact isLT_ofNat_cons (by omega) (by omega) ..
  rw [if_neg hv3]
  refine isLT_append_of_toNat (by rfl) ?_ s t
  simp only [Bytes.toNat, List.foldl_cons, List.foldl_nil]
  repeat rw [toNat_ofNat_of_lt (by omega)]
  have hdigits := digits_lt hlt
  rw [Nat.mod_eq_of_lt (show v / 262144 < 8 by omega),
    Nat.mod_eq_of_lt (show w / 262144 < 8 by omega)]
  omega

/-- The bytes of a text lie below those of every text above it. -/
theorem isLT_encode {cs ds : List Char} (h : cs < ds) :
    (compare (encode cs) (encode ds)).isLT = true := by
  induction cs generalizing ds with
  | nil =>
    cases ds with
    | nil => exact absurd h (List.lt_irrefl [])
    | cons d ds =>
      obtain ⟨first, tail, hcons, -⟩ := encode_cons d ds
      rw [hcons]
      rfl
  | cons c cs ih =>
    cases ds with
    | nil => exact absurd h (List.not_lt_nil _)
    | cons d ds =>
      rw [encode, encode, List.flatMap_cons, List.flatMap_cons]
      rcases List.cons_lt_cons_iff.1 h with hfirst | ⟨rfl, hrest⟩
      · exact isLT_encodeChar hfirst _ _
      · rw [compare_append_left]
        exact ih hrest

/-- Strings are ordered as their bytes. -/
theorem compare_ofString (s t : String) : compare (ofString s) (ofString t) = compare s t := by
  have hlt {s t : String} (h : s < t) : compare (ofString s) (ofString t) = .lt := by
    have hbytes := isLT_encode (String.lt_iff_toList_lt.1 h)
    rwa [Ordering.isLT_iff_eq_lt] at hbytes
  cases hst : compare s t with
  | lt => exact hlt (compare_lt_iff_lt.1 hst)
  | eq =>
    obtain rfl := compare_eq_iff_eq.1 hst
    exact Std.ReflCmp.compare_self
  | gt => exact Std.OrientedCmp.gt_of_lt (hlt (compare_gt_iff_gt.1 hst))

end Utf8

end GraphStore
