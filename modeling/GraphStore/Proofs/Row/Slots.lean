import GraphStore.Proofs.Row.Given

/-!
# Where the values of a row come from

A row has a value for each column, whatever names its columns have. In the places that a request
gives a value it is what the column stores for one of the given values, and in the others it is the
column's own: its default, or null.
-/

namespace GraphStore.Row

/-- Whether a request gives a value to the column in a place: to the leading ones when there are no
names, else to those found under one of the names. -/
def gives (schema : Schema) (names : List String) (values : List Value) (i : Nat) : Bool :=
  if names.isEmpty then i < values.length
  else names.any fun name => (schema.field? name).any (·.1 = i)

/-- Slots for all columns, of which just those in the places taken are filled, each with what its
column stores for one of the values. -/
structure Filled (columns : List Column) (values : List Value) (taken : Nat → Prop)
    (slots : List (Option Value)) : Prop where
  length_eq : slots.length = columns.length
  taken_iff : ∀ i < columns.length, taken i ↔ ∃ value, slots[i]? = some (some value)
  checked : ∀ (i : Nat) (column : Column) (value : Value), columns[i]? = some column →
    slots[i]? = some (some value) → ∃ given ∈ values, check column given = .ok value

/-- Empty slots are filled in no place. -/
theorem filled_none (columns : List Column) (values : List Value) :
    Filled columns values (fun _ => False) (columns.map fun _ => none) where
  length_eq := List.length_map _
  taken_iff i hlt := by simp [hlt]
  checked i column value hcolumn hslot := by
    rw [List.getElem?_map, hcolumn] at hslot
    cases hslot

/-- One more filled slot takes its place. -/
theorem Filled.set {columns : List Column} {values : List Value} {taken : Nat → Prop}
    {slots : List (Option Value)} (h : Filled columns values taken slots) {i : Nat}
    {column : Column} (hcolumn : columns[i]? = some column) {given value : Value}
    (hgiven : given ∈ values) (hcheck : check column given = .ok value) :
    Filled columns values (fun j => taken j ∨ i = j) (slots.set i (some value)) where
  length_eq := by rw [List.length_set, h.length_eq]
  taken_iff j hlt := by
    by_cases hij : i = j
    · subst hij
      simp [h.length_eq, hlt]
    · rw [List.getElem?_set_ne hij, ← h.taken_iff j hlt]
      simp [hij]
  checked j other stored hother hslot := by
    by_cases hij : i = j
    · subst hij
      obtain rfl : column = other := Option.some.inj (hcolumn.symm.trans hother)
      have hlt : i < slots.length := h.length_eq ▸ (List.getElem?_eq_some_iff.1 hcolumn).1
      rw [List.getElem?_set_self hlt] at hslot
      cases hslot
      exact ⟨given, hgiven, hcheck⟩
    · rw [List.getElem?_set_ne hij] at hslot
      exact h.checked j other stored hother hslot

/-- Named values take the places of their names. -/
theorem Filled.fillByName {schema : Schema} {values : List Value} {taken : Nat → Prop}
    {slots filled : List (Option Value)} (h : Filled schema.columns values taken slots)
    {pairs : List (String × Value)} (hpairs : ∀ pair ∈ pairs, pair.2 ∈ values)
    (hfill : Row.fillByName schema slots pairs = .ok filled) :
    Filled schema.columns values
      (fun i => taken i ∨ ∃ name ∈ pairs.map (·.1), ∃ column, schema.field? name = some (i, column))
      filled := by
  induction pairs generalizing taken slots with
  | nil =>
    cases hfill
    simpa using h
  | cons pair pairs ih =>
    obtain ⟨name, given⟩ := pair
    obtain ⟨hgiven, hrest⟩ := List.forall_mem_cons.1 hpairs
    rw [Row.fillByName] at hfill
    cases hfield : schema.field? name with
    | none =>
      rw [hfield] at hfill
      cases hfill
    | some found =>
      obtain ⟨i, column⟩ := found
      rw [hfield] at hfill
      obtain ⟨value, hcheck, hfill⟩ := bind_eq_ok.1 hfill
      -- The place of this name is taken before the induction goes on with the rest.
      have hset := ih (h.set (Schema.field?_eq_some hfield).1 hgiven hcheck) hrest hfill
      have hplaces (j : Nat) : ((taken j ∨ i = j) ∨ ∃ other ∈ pairs.map (·.1),
            ∃ column, schema.field? other = some (j, column)) ↔
          taken j ∨ ∃ other ∈ name :: pairs.map (·.1),
            ∃ column, schema.field? other = some (j, column) := by
        simp [hfield, or_assoc]
      simpa only [hplaces, List.map_cons] using hset

/-- Values in column order take the leading places. -/
theorem filled_fillInOrder {columns : List Column} {values : List Value}
    {slots : List (Option Value)} (hfill : fillInOrder columns values = .ok slots) :
    Filled columns values (· < values.length) slots := by
  induction columns generalizing values slots with
  | nil =>
    cases values with
    | nil =>
      cases hfill
      simpa using filled_none [] []
    | cons given values => cases hfill
  | cons column columns ih =>
    cases values with
    | nil =>
      cases hfill
      simpa using filled_none (column :: columns) []
    | cons given values =>
      obtain ⟨value, hcheck, hfill⟩ := bind_eq_ok.1 hfill
      obtain ⟨rest, hrest, hfill⟩ := bind_eq_ok.1 hfill
      cases hfill
      have h := ih hrest
      refine ⟨congrArg (· + 1) h.length_eq, fun i hlt => ?_, fun i other stored hother hslot => ?_⟩
      · cases i with
        | zero => simp
        | succ i => simpa using h.taken_iff i (Nat.lt_of_succ_lt_succ hlt)
      · cases i with
        | zero =>
          cases hother
          cases hslot
          exact ⟨given, List.mem_cons_self, hcheck⟩
        | succ i =>
          obtain ⟨found, hfound, hstored⟩ := h.checked i other stored hother hslot
          exact ⟨found, List.mem_cons_of_mem _ hfound, hstored⟩

/-- The slots of a request are filled in the places that it gives a value. -/
theorem filled_slots {schema : Schema} {names : List String} {values : List Value}
    {filled : List (Option Value)} (hslots : slots schema names values = .ok filled) :
    Filled schema.columns values (gives schema names values · = true) filled := by
  unfold slots at hslots
  unfold gives
  by_cases hempty : names.isEmpty = true
  · rw [if_pos hempty] at hslots
    simp only [if_pos hempty, decide_eq_true_iff]
    split at hslots
    · cases hslots
    · exact filled_fillInOrder hslots
  · rw [if_neg hempty] at hslots
    simp only [if_neg hempty]
    split at hslots
    · cases hslots
    · next hlength =>
      have hnames : (names.zip values).map (·.1) = names :=
        List.map_fst_zip (Nat.le_of_eq (not_not.1 hlength))
      have h := (filled_none schema.columns values).fillByName
        (fun pair hpair => (List.of_mem_zip hpair).2) hslots
      rw [hnames] at h
      have hplaces (i : Nat) : (names.any fun name => (schema.field? name).any (·.1 = i)) = true ↔
          False ∨ ∃ name ∈ names, ∃ column, schema.field? name = some (i, column) := by
        simp [Option.any_eq_true]
      simpa only [hplaces] using h

/-- Slots that complete to the values of a row, one for each column, make the row. -/
theorem completeAll_eq_ok {columns : List Column} {slots : List (Option Value)} {row : Row}
    (hslots : slots.length = columns.length) (hrow : row.length = columns.length)
    (h : ∀ (i : Nat) (column : Column) (slot : Option Value) (value : Value),
      columns[i]? = some column → slots[i]? = some slot → row[i]? = some value →
        complete column slot = .ok value) :
    completeAll columns slots = .ok row := by
  induction columns generalizing slots row with
  | nil =>
    obtain rfl := List.length_eq_zero_iff.1 hrow
    rfl
  | cons column columns ih =>
    cases slots with
    | nil => cases hslots
    | cons slot slots =>
      cases row with
      | nil => cases hrow
      | cons value row =>
        have hrest := ih (Nat.succ.inj hslots) (Nat.succ.inj hrow)
          fun i other found stored hother hfound hstored =>
            h (i + 1) other found stored hother hfound hstored
        exact bind_eq_ok.2 ⟨value, h 0 column slot value rfl rfl rfl, bind_eq_ok.2 ⟨row, hrest, rfl⟩⟩

/-- The value of a column comes from a given one, which the column stores, or from the column
itself. -/
def ComesFrom (values : List Value) (column : Column) (given : Bool) (value : Value) : Prop :=
  if given then ∃ wanted ∈ values, check column wanted = .ok value
  else complete column none = .ok value

/-- The row of a request has a value for each column, given or the column's own. -/
theorem comesFrom_of_ofGiven {schema : Schema} {names : List String} {values : List Value}
    {row : Row} (hrow : ofGiven schema names values = .ok row) :
    row.length = schema.columns.length ∧
      ∀ (i : Nat) (column : Column), schema.columns[i]? = some column →
        ∃ value, row[i]? = some value ∧
          ComesFrom values column (gives schema names values i) value := by
  obtain ⟨filled, hslots, hrow⟩ := bind_eq_ok.1 hrow
  have hfilled := filled_slots hslots
  refine ⟨by rw [length_completeAll hrow, hfilled.length_eq, Nat.min_self], fun i column hcolumn => ?_⟩
  have hlt := (List.getElem?_eq_some_iff.1 hcolumn).1
  obtain ⟨slot, hslot⟩ : ∃ slot, filled[i]? = some slot :=
    ⟨_, List.getElem?_eq_getElem (hfilled.length_eq ▸ hlt)⟩
  obtain ⟨value, hvalue, hcomplete⟩ := completeAll_stores hrow hcolumn hslot
  refine ⟨value, hvalue, ?_⟩
  have htaken := hfilled.taken_iff i hlt
  cases slot with
  | none =>
    have hfree : gives schema names values i = false := by
      simpa [hslot] using htaken
    simpa [ComesFrom, hfree] using hcomplete
  | some stored =>
    have hgiven : gives schema names values i = true := htaken.2 ⟨stored, hslot⟩
    obtain rfl : stored = value := Except.ok.inj hcomplete
    simpa [ComesFrom, hgiven] using hfilled.checked i column stored hcolumn hslot

end GraphStore.Row
