import GraphStore.Proofs.Storage.Partition

/-!
# Stems as ranges

The upper bound of a stem is the least string above all that begin with the stem. So to read by a
stem is to read the range from the stem to its upper bound, and to remove that range is to remove
just what would be read.
-/

namespace GraphStore

namespace Key

variable {stem : Bytes}

/-- Whether a string is the least one above all that begin with a stem. -/
structure IsLeastAbove (stem bound : Bytes) : Prop where
  above : ∀ key, stem <+: key → compare key bound = .lt
  least : ∀ other, (∀ key, stem <+: key → compare key other = .lt) →
    (compare bound other).isLE = true

/-- Between a stem and its upper bound are the strings that begin with the stem. -/
theorem between_upperBound_iff (h : ∃ b ∈ stem, b ≠ 0xff) (key : Bytes) :
    (compare stem key).isLE = true ∧ compare key (upperBound stem) = .lt ↔ stem <+: key := by
  rw [← within_upperBound_iff h, Partition.within, Bool.and_eq_true, Ordering.isLT_iff_eq_lt]

/-- The upper bound of a stem is the least string above all that begin with it: what lies below it
and above the stem begins with the stem itself. -/
theorem isLeastAbove_upperBound (h : ∃ b ∈ stem, b ≠ 0xff) :
    IsLeastAbove stem (upperBound stem) where
  above key hkey := ((between_upperBound_iff h key).2 hkey).2
  least other habove := by
    by_contra hnot
    have hbelow : compare other (upperBound stem) = .lt := by
      rwa [Partition.isLE_iff_not_isLT, not_not, Ordering.isLT_iff_eq_lt] at hnot
    have hstart : (compare stem other).isLE = true := by
      rw [habove stem (List.prefix_refl stem)]
      rfl
    have hself : compare other other = .lt :=
      habove other ((between_upperBound_iff h other).1 ⟨hstart, hbelow⟩)
    have hrefl : compare other other = .eq := Std.ReflCmp.compare_self
    cases hself.symm.trans hrefl

end Key

namespace Partition

variable {stem : Bytes} (h : ∃ b ∈ stem, b ≠ 0xff) (p : Partition)
include h

/-- A scan reads the range from its stem to the upper bound. -/
theorem scan_eq_range : p.scan stem = p.range stem (Key.upperBound stem) := by
  rw [scan_eq_filter, range]
  apply List.filter_congr
  intro entry _
  rw [Bool.eq_iff_iff, List.isPrefixOf_iff_prefix, Key.within_upperBound_iff h]

/-- To remove the range from a stem to its upper bound takes away the keys that begin with the stem,
and all others keep their values. -/
theorem getElem?_removeRange_upperBound (key : Bytes) :
    (p.removeRange stem (Key.upperBound stem))[key]? = if stem <+: key then none else p[key]? := by
  rw [getElem?_removeRange]
  exact if_congr (Key.within_upperBound_iff h key) rfl rfl

end Partition

namespace Store

variable {stem : Bytes}

/-- A partition that is not there is not read by a range either, for the range of a stem is not
empty. -/
theorem scan_eq_range (h : ∃ b ∈ stem, b ≠ 0xff) (s : Store) (addr : Address) :
    s.scan addr stem = s.range addr stem (Key.upperBound stem) := by
  have hbelow : compare stem (Key.upperBound stem) = .lt :=
    (Key.isLeastAbove_upperBound h).above stem (List.prefix_refl stem)
  have hread : (fun p : Partition => p.scan stem) = (·.range stem (Key.upperBound stem)) := by
    funext p
    exact p.scan_eq_range h
  rw [range, hbelow, if_neg (by decide), scan, hread]

/-- Stems and ranges agree. The strings between a stem and its upper bound are those that begin with
it, and there is no lesser bound. To scan a partition by a stem is to read this range, and gives the
entries whose keys begin with the stem in ascending order; to remove the range removes just these,
and leaves every other partition as it is. -/
theorem stem_is_range (h : ∃ b ∈ stem, b ≠ 0xff) :
    (∀ key, (compare stem key).isLE = true ∧ compare key (Key.upperBound stem) = .lt ↔
      stem <+: key) ∧
    Key.IsLeastAbove stem (Key.upperBound stem) ∧
    ∀ (s : Store) (addr : Address),
      s.scan addr stem = s.range addr stem (Key.upperBound stem) ∧
      ∀ p : Partition, s.parts[addr]? = some p →
        (∃ entries, s.scan addr stem = .ok entries ∧
          entries.Pairwise (fun a b => compare a.1 b.1 = .lt) ∧
          ∀ key value, (key, value) ∈ entries ↔ p[key]? = some value ∧ stem <+: key) ∧
        (s.failures[addr]? = none → ∃ left : Partition,
          s.removeRange addr stem (Key.upperBound stem) =
            ({ s with parts := s.parts.insert addr left, removeCalls := s.removeCalls + 1 },
              .succeeded) ∧
          ∀ key, left[key]? = if stem <+: key then none else p[key]?) := by
  refine ⟨Key.between_upperBound_iff h, Key.isLeastAbove_upperBound h, fun s addr => ?_⟩
  refine ⟨scan_eq_range h s addr, fun p hp => ⟨?_, fun hhealthy => ?_⟩⟩
  · refine ⟨p.scan stem, ?_, p.pairwise_scan stem, fun key value => Partition.mem_scan⟩
    rw [scan, read, hp]
  · refine ⟨p.removeRange stem (Key.upperBound stem), ?_, p.getElem?_removeRange_upperBound h⟩
    simp only [removeRange, write, hhealthy, hp]

/-- The stem whose last byte cannot be raised ends where the byte before it is raised, and the
removal of its range spares the key at that end. -/
theorem stem_is_range_of_carry :
    let p : Partition := (∅ : Partition).put [([1, 2, 0xff, 7], [10]), ([1, 3], [11])]
    let s : Store := { parts := (∅ : Std.ExtTreeMap Address Partition).insert ⟨1, 1⟩ p }
    (∃ b ∈ ([1, 2, 0xff] : Bytes), b ≠ 0xff) ∧ Key.upperBound [1, 2, 0xff] = [1, 3] ∧
      (∃ entries, s.scan ⟨1, 1⟩ [1, 2, 0xff] = .ok entries ∧ ([1, 2, 0xff, 7], [10]) ∈ entries) ∧
      ∃ left : Partition, (s.removeRange ⟨1, 1⟩ [1, 2, 0xff] [1, 3]).1.parts[(⟨1, 1⟩ : Address)]? =
        some left ∧ left[([1, 2, 0xff, 7] : Bytes)]? = none ∧
          left[([1, 3] : Bytes)]? = some [11] := by
  intro p s
  have hbyte : ∃ b ∈ ([1, 2, 0xff] : Bytes), b ≠ 0xff := ⟨1, by decide, by decide⟩
  have hbound : Key.upperBound [1, 2, 0xff] = [1, 3] := by decide +kernel
  have hp : s.parts[(⟨1, 1⟩ : Address)]? = some p := Std.ExtTreeMap.getElem?_insert_self
  obtain ⟨-, -, hstores⟩ := stem_is_range hbyte
  obtain ⟨⟨entries, hscan, -, hmem⟩, hremove⟩ := (hstores s ⟨1, 1⟩).2 p hp
  obtain ⟨left, hremoved, hleft⟩ := hremove (by decide +kernel)
  rw [hbound] at hremoved
  have hlisted : ([1, 2, 0xff, 7], [10]) ∈ entries := (hmem _ _).2 ⟨by decide +kernel, by decide⟩
  refine ⟨hbyte, hbound, ⟨entries, hscan, hlisted⟩, left, ?_, ?_, ?_⟩
  · rw [hremoved]
    exact Std.ExtTreeMap.getElem?_insert_self
  · rw [hleft, if_pos (by decide)]
  · rw [hleft, if_neg (by decide)]
    decide +kernel

end Store

end GraphStore
