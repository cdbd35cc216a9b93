import GraphStore.Proofs.Key.Prefix
import GraphStore.Storage.Node
import Mathlib.Data.List.Sort

/-!
# What a write leaves in a partition

Each write is seen through the values under keys: a put gives a key the last value that the batch
has for it, a removal takes the keys away, and every other key keeps its value. A scan finds the
entries whose keys begin with its stem.
-/

namespace GraphStore

namespace Partition

variable {p : Partition} {batch : List Entry} {keys : List Bytes} {key stem start stop : Bytes}
  {value : Bytes}

/-- The keys of a batch. -/
abbrev keysOf (batch : List Entry) : List Bytes := batch.map (·.1)

/-- A key that is there has a value. -/
theorem mem_iff_getElem? : key ∈ p ↔ ∃ value : Bytes, p[key]? = some value := by
  rw [Std.ExtTreeMap.mem_iff_isSome_getElem?, Option.isSome_iff_exists]

/-- The last value that a batch has for a key. -/
def lastValue? (batch : List Entry) (key : Bytes) : Option Bytes :=
  ((batch.filter (·.1 = key)).getLast?).map (·.2)

/-- A batch has a last value for its keys alone. -/
theorem lastValue?_eq_none : lastValue? batch key = none ↔ key ∉ keysOf batch := by
  rw [lastValue?, Option.map_eq_none_iff, List.getLast?_eq_none_iff, List.filter_eq_nil_iff, keysOf,
    List.mem_map]
  constructor
  · rintro h ⟨entry, hentry, rfl⟩
    exact h entry hentry (decide_eq_true rfl)
  · exact fun h entry hentry heq => h ⟨entry, hentry, of_decide_eq_true heq⟩

/-- The last value is one of the batch. -/
theorem mem_of_lastValue? (h : lastValue? batch key = some value) : (key, value) ∈ batch := by
  obtain ⟨⟨found, _⟩, hlast, rfl⟩ := Option.map_eq_some_iff.1 h
  obtain ⟨hmem, hkey⟩ := List.mem_filter.1 (List.mem_of_getLast? hlast)
  obtain rfl : found = key := of_decide_eq_true hkey
  exact hmem

/-- A key with one value has it last. -/
theorem lastValue?_of_forall (hkey : key ∈ keysOf batch)
    (h : ∀ entry ∈ batch, entry.1 = key → entry.2 = value) : lastValue? batch key = some value := by
  cases hlast : lastValue? batch key with
  | none => exact absurd hkey (lastValue?_eq_none.1 hlast)
  | some last => rw [← h _ (mem_of_lastValue? hlast) rfl]

/-- Of two batches one behind the other, the second has the last word. -/
theorem lastValue?_append (batch other : List Entry) :
    lastValue? (batch ++ other) key = (lastValue? other key).or (lastValue? batch key) := by
  rw [lastValue?, lastValue?, lastValue?, List.filter_append, List.getLast?_append, Option.map_or]

/-- Batches that have a value for a key or none have it together, if one of them has it. -/
theorem lastValue?_flatMap {α : Type} {items : List α} {f : α → List Entry}
    (h : ∀ item ∈ items, key ∈ keysOf (f item) → lastValue? (f item) key = some value)
    (hkey : key ∈ keysOf (items.flatMap f)) : lastValue? (items.flatMap f) key = some value := by
  induction items with
  | nil => cases hkey
  | cons item items ih =>
    have hrest (other : α) (hother : other ∈ items) := h other (List.mem_cons_of_mem _ hother)
    rw [List.flatMap_cons, keysOf, List.map_append, List.mem_append] at hkey
    rw [List.flatMap_cons, lastValue?_append]
    by_cases hlater : key ∈ keysOf (items.flatMap f)
    · rw [ih hrest hlater, Option.some_or]
    · have hfirst : key ∈ keysOf (f item) := hkey.resolve_right hlater
      rw [lastValue?_eq_none.2 hlater, Option.none_or, h item List.mem_cons_self hfirst]

/-- A put gives a key the last value that the batch has for it. -/
theorem getElem?_put : (p.put batch)[key]? = (lastValue? batch key).or p[key]? := by
  induction batch generalizing p with
  | nil => rfl
  | cons entry batch ih =>
    have hstep : p.put (entry :: batch) = put (p.insert entry.1 entry.2) batch := rfl
    simp only [hstep, ih, Std.ExtTreeMap.getElem?_insert, Std.LawfulEqCmp.compare_eq_iff_eq]
    by_cases hkey : entry.1 = key
    · have hfilter : (entry :: batch).filter (·.1 = key) = entry :: batch.filter (·.1 = key) :=
        List.filter_cons_of_pos (decide_eq_true hkey)
      rw [if_pos hkey, lastValue?, lastValue?, hfilter, List.getLast?_cons]
      cases (batch.filter (·.1 = key)).getLast? <;> rfl
    · have hfilter : (entry :: batch).filter (·.1 = key) = batch.filter (·.1 = key) :=
        List.filter_cons_of_neg (by simpa using hkey)
      rw [if_neg hkey, lastValue?, lastValue?, hfilter]

/-- A key that is not put keeps its value. -/
theorem getElem?_put_of_notMem (h : key ∉ keysOf batch) (p : Partition) :
    (p.put batch)[key]? = p[key]? := by
  rw [getElem?_put, lastValue?_eq_none.2 h, Option.none_or]

/-- A key that is put has one of its values. -/
theorem mem_of_getElem?_put (h : (p.put batch)[key]? = some value) (hkey : key ∈ keysOf batch) :
    (key, value) ∈ batch := by
  rw [getElem?_put] at h
  cases hlast : lastValue? batch key with
  | none => exact absurd hkey (lastValue?_eq_none.1 hlast)
  | some last =>
    rw [hlast] at h
    obtain rfl := Option.some.inj h
    exact mem_of_lastValue? hlast

/-- A put adds its keys and drops none. -/
theorem mem_put : key ∈ p.put batch ↔ key ∈ keysOf batch ∨ key ∈ p := by
  induction batch generalizing p with
  | nil => simp [put]
  | cons entry batch ih =>
    have hstep : p.put (entry :: batch) = put (p.insert entry.1 entry.2) batch := rfl
    rw [hstep, ih, Std.ExtTreeMap.mem_insert, keysOf, keysOf, List.map_cons, List.mem_cons,
      Std.LawfulEqCmp.compare_eq_iff_eq]
    constructor
    · rintro (h | rfl | h)
      · exact .inl (.inr h)
      · exact .inl (.inl rfl)
      · exact .inr h
    · rintro ((rfl | h) | h)
      · exact .inr (.inl rfl)
      · exact .inl h
      · exact .inr (.inr h)

/-- What is put behind is put on top. -/
theorem put_append (p : Partition) (batch other : List Entry) :
    p.put (batch ++ other) = (p.put batch).put other :=
  List.foldl_append

/-- Removed keys are gone, and all others keep their values. -/
theorem getElem?_remove : (p.remove keys)[key]? = if key ∈ keys then none else p[key]? := by
  induction keys generalizing p with
  | nil => simp [remove]
  | cons first keys ih =>
    have hstep : p.remove (first :: keys) = remove (p.erase first) keys := rfl
    simp only [hstep, ih, Std.ExtTreeMap.getElem?_erase, Std.LawfulEqCmp.compare_eq_iff_eq]
    by_cases hkeys : key ∈ keys
    · rw [if_pos hkeys, if_pos (List.mem_cons_of_mem _ hkeys)]
    · by_cases hfirst : first = key
      · rw [if_neg hkeys, if_pos hfirst, if_pos (hfirst ▸ List.mem_cons_self)]
      · rw [if_neg hkeys, if_neg hfirst, if_neg]
        rintro hmem
        rcases List.mem_cons.1 hmem with heq | hmem
        · exact hfirst heq.symm
        · exact hkeys hmem

/-- The keys of a removed range are gone, and all others keep their values. -/
theorem getElem?_removeRange :
    (p.removeRange start stop)[key]? = if within start stop key then none else p[key]? := by
  rw [removeRange, Std.ExtTreeMap.getElem?_filter']
  cases within start stop key <;> cases p[key]? <;> simp

/-- The entries of a range are those whose keys lie in it. -/
theorem mem_range : (key, value) ∈ p.range start stop ↔
    p[key]? = some value ∧ within start stop key = true := by
  rw [range, List.mem_filter, Std.ExtTreeMap.mem_toList_iff_getElem?_eq_some]

/-- One string is at most another when the other is not below it. -/
theorem isLE_iff_not_isLT {s t : Bytes} :
    (compare s t).isLE = true ↔ ¬ (compare t s).isLT = true := by
  have hswap : compare s t = (compare t s).swap := Std.OrientedCmp.eq_swap
  rw [hswap]
  cases compare t s <;> simp

/-- A string is at least each of its stems. -/
theorem isLE_of_stem (h : stem <+: key) : (compare stem key).isLE = true := by
  induction stem generalizing key with
  | nil => cases key <;> simp [List.compare_nil_cons]
  | cons byte stem ih =>
    obtain ⟨rest, rfl⟩ := h
    rw [List.cons_append, Bytes.isLE_compare_cons]
    exact .inr ⟨rfl, ih (List.prefix_append ..)⟩

/-- A string between a stem and an extension of it begins with the stem. -/
theorem prefix_of_between {other : Bytes} (hstem : (compare stem key).isLE = true)
    (hkey : (compare key other).isLT = true) (hstart : stem <+: other) : stem <+: key := by
  obtain ⟨rest, rfl⟩ := hstart
  have hlow : (compare (stem ++ []) key).isLE = true := by rwa [List.append_nil]
  exact prefix_of_within (Bool.and_eq_true_iff.2 ⟨hlow, hkey⟩)

/-- From a start behind a stem to its upper bound there are only keys that begin with it. -/
theorem prefix_of_within_upperBound {low : Bytes} (hstem : ∃ b ∈ stem, b ≠ 0xff)
    (h : within (stem ++ low) (Key.upperBound stem) key = true) : stem <+: key := by
  obtain ⟨hlow, hhigh⟩ := Bool.and_eq_true_iff.1 h
  have hstart := Std.TransCmp.isLE_trans (isLE_of_stem (List.prefix_append stem low)) hlow
  exact (Key.within_upperBound_iff hstem key).1 (Bool.and_eq_true_iff.2 ⟨hstart, hhigh⟩)

/-- In ascending order the strings that begin with a stem come first among those at or above
it. -/
theorem mem_takeWhile_prefix {entries : List Entry} {entry : Entry}
    (hsorted : entries.Pairwise fun a b => compare a.1 b.1 = .lt)
    (habove : ∀ e ∈ entries, (compare stem e.1).isLE = true) :
    entry ∈ entries.takeWhile (fun e => stem.isPrefixOf e.1) ↔
      entry ∈ entries ∧ stem <+: entry.1 := by
  induction entries with
  | nil => simp
  | cons first entries ih =>
    obtain ⟨hfirst, hsorted⟩ := List.pairwise_cons.1 hsorted
    have ih := ih hsorted fun e he => habove e (List.mem_cons_of_mem _ he)
    by_cases hstart : stem <+: first.1
    · have hpos : (fun e : Entry => stem.isPrefixOf e.1) first = true :=
        List.isPrefixOf_iff_prefix.2 hstart
      rw [List.takeWhile_cons_of_pos (p := fun e : Entry => stem.isPrefixOf e.1) hpos, List.mem_cons, ih, List.mem_cons]
      constructor
      · rintro (rfl | ⟨hmem, h⟩)
        · exact ⟨.inl rfl, hstart⟩
        · exact ⟨.inr hmem, h⟩
      · rintro ⟨rfl | hmem, h⟩
        · exact .inl rfl
        · exact .inr ⟨hmem, h⟩
    · have hneg : ¬ (fun e : Entry => stem.isPrefixOf e.1) first = true :=
        fun h => hstart (List.isPrefixOf_iff_prefix.1 h)
      rw [List.takeWhile_cons_of_neg (p := fun e : Entry => stem.isPrefixOf e.1) hneg]
      constructor
      · intro h
        cases h
      · rintro ⟨hmem, h⟩
        rcases List.mem_cons.1 hmem with rfl | hmem
        · exact absurd h hstart
        · have hlt : (compare first.1 entry.1).isLT = true := by rw [hfirst entry hmem]; rfl
          exact absurd (prefix_of_between (habove first List.mem_cons_self) hlt h) hstart

/-- A scan finds the entries whose keys begin with its stem. -/
theorem mem_scan : (key, value) ∈ p.scan stem ↔ p[key]? = some value ∧ stem <+: key := by
  have hsorted : p.toList.Pairwise fun a b => compare a.1 b.1 = .lt := p.ordered_keys_toList
  have hscan : p.scan stem = (p.toList.dropWhile fun e => (compare e.1 stem).isLT).takeWhile
      fun e => stem.isPrefixOf e.1 := rfl
  rw [hscan, ← Std.ExtTreeMap.mem_toList_iff_getElem?_eq_some]
  generalize p.toList = entries at hsorted
  induction entries with
  | nil => simp
  | cons first entries ih =>
    obtain ⟨hfirst, htail⟩ := List.pairwise_cons.1 hsorted
    by_cases hbelow : (compare first.1 stem).isLT = true
    · have hpos : (fun e : Entry => (compare e.1 stem).isLT) first = true := hbelow
      rw [List.dropWhile_cons_of_pos (p := fun e : Entry => (compare e.1 stem).isLT) hpos]
      refine (ih htail).trans ?_
      rw [List.mem_cons]
      constructor
      · exact fun ⟨hmem, h⟩ => ⟨.inr hmem, h⟩
      · rintro ⟨rfl | hmem, h⟩
        · exact absurd hbelow (isLE_iff_not_isLT.1 (isLE_of_stem h))
        · exact ⟨hmem, h⟩
    · have hneg : ¬ (fun e : Entry => (compare e.1 stem).isLT) first = true := hbelow
      rw [List.dropWhile_cons_of_neg (p := fun e : Entry => (compare e.1 stem).isLT) hneg]
      apply mem_takeWhile_prefix hsorted
      have hstem : (compare stem first.1).isLE = true := isLE_iff_not_isLT.2 hbelow
      intro e he
      rcases List.mem_cons.1 he with rfl | he
      · exact hstem
      · exact Std.TransCmp.isLE_trans hstem (by rw [hfirst e he]; rfl)

/-- The entries are in ascending order of their keys. -/
theorem pairwise_toList (p : Partition) : p.toList.Pairwise fun a b => compare a.1 b.1 = .lt :=
  p.ordered_keys_toList

/-- What is scanned is in ascending order of the keys. -/
theorem pairwise_scan (p : Partition) (stem : Bytes) :
    (p.scan stem).Pairwise fun a b => compare a.1 b.1 = .lt :=
  p.pairwise_toList.sublist ((List.takeWhile_sublist _).trans (List.dropWhile_sublist _))

/-- A scan is the part of the partition under its stem, in key order. -/
theorem scan_eq_filter (p : Partition) (stem : Bytes) :
    p.scan stem = p.toList.filter fun entry => stem.isPrefixOf entry.1 := by
  let below (a b : Entry) : Prop := compare a.1 b.1 = .lt
  have hirrefl : Std.Irrefl below := ⟨fun a h => by
    have hself : compare a.1 a.1 = .eq := Std.ReflCmp.compare_self
    exact nomatch hself.symm.trans h⟩
  have hantisymm : Std.Antisymm below := ⟨fun a b h h' =>
    nomatch h'.symm.trans (Std.OrientedCmp.gt_of_lt h)⟩
  have hscan : (p.scan stem).Pairwise below := p.pairwise_scan stem
  have hall : p.toList.Pairwise below := p.pairwise_toList
  refine hscan.eq_of_mem_iff (hall.sublist List.filter_sublist) ?_
  intro ⟨key, value⟩
  rw [mem_scan, List.mem_filter, Std.ExtTreeMap.mem_toList_iff_getElem?_eq_some,
    List.isPrefixOf_iff_prefix]

/-- A range whose keys all begin with a stem is a part of the scan of the stem. -/
theorem range_eq_filter_scan (h : ∀ key, within start stop key = true → stem <+: key)
    (p : Partition) :
    p.range start stop = (p.scan stem).filter fun entry => within start stop entry.1 := by
  rw [scan_eq_filter, List.filter_filter, range]
  refine List.filter_congr fun (key, _) _ => ?_
  dsimp only
  cases hwithin : within start stop key with
  | false => rfl
  | true => exact (List.isPrefixOf_iff_prefix.2 (h key hwithin)).symm

/-- The scan of a longer stem is a part of that of a shorter one. -/
theorem scan_append (p : Partition) (stem rest : Bytes) :
    p.scan (stem ++ rest) = (p.scan stem).filter fun entry => (stem ++ rest).isPrefixOf entry.1 := by
  rw [scan_eq_filter, scan_eq_filter, List.filter_filter]
  refine List.filter_congr fun entry _ => ?_
  cases hlong : (stem ++ rest).isPrefixOf entry.1 with
  | false => rfl
  | true =>
    have hstem := (List.prefix_append stem rest).trans (List.isPrefixOf_iff_prefix.1 hlong)
    exact (List.isPrefixOf_iff_prefix.2 hstem).symm

end Partition

end GraphStore
