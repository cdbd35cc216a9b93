import GraphStore.Proofs.Row.Slots

/-!
# Values by name and values in order

Values in column order make the row, or the fault, that the same values make under the names of the
leading columns. Under distinct names the order does not matter: the row has in each column what the
column stores of the value given under its name, or else the column's own value.
-/

namespace GraphStore

/-- With distinct names a column is found in its place. -/
theorem Schema.field?_name {schema : Schema} (hnodup : schema.names.Nodup) {i : Nat}
    {column : Column} (hcolumn : schema.columns[i]? = some column) :
    schema.field? column.name = some (i, column) := by
  have hknown : column.name ∈ schema.names := List.mem_map_of_mem (List.mem_of_getElem? hcolumn)
  obtain ⟨⟨j, other⟩, hfield⟩ := Option.isSome_iff_exists.1 (Schema.isSome_field?.2 hknown)
  obtain ⟨hother, hname⟩ := Schema.field?_eq_some hfield
  obtain rfl := Schema.place_inj hnodup hcolumn hother hname.symm
  rw [hfield, Option.some.inj (hother.symm.trans hcolumn)]

namespace Props

/-- Under distinct names a property is found just when it was given. -/
theorem get?_ofPairs_eq_some {pairs : List (String × Value)} (hdistinct : (pairs.map (·.1)).Nodup)
    {name : String} {value : Value} :
    (ofPairs pairs).get? name = some value ↔ (name, value) ∈ pairs := by
  constructor
  · intro h
    rcases mem_of_get?_foldl_set h with hmem | hnone
    · exact hmem
    · cases hnone
  · intro hmem
    obtain ⟨i, hi⟩ := List.mem_iff_getElem?.1 hmem
    have hname : (pairs.map (·.1))[i]? = some name := by rw [List.getElem?_map, hi]; rfl
    have hvalue : (pairs.map (·.2))[i]? = some value := by rw [List.getElem?_map, hi]; rfl
    rw [ofPairs, ← zip_pairs pairs, get?_foldl_set_zip hdistinct hname, hvalue]
    rfl

/-- Under distinct names the order in which properties are given does not matter. -/
theorem get?_ofPairs_perm {pairs others : List (String × Value)}
    (hdistinct : (pairs.map (·.1)).Nodup) (hperm : pairs.Perm others) :
    (ofPairs pairs).get? = (ofPairs others).get? := by
  have hdistinct' : (others.map (·.1)).Nodup := (hperm.map _).nodup_iff.1 hdistinct
  funext name
  refine Option.ext fun value => ?_
  rw [get?_ofPairs_eq_some hdistinct, get?_ofPairs_eq_some hdistinct', hperm.mem_iff]

end Props

namespace Row

variable {schema : Schema} {row : Row}

/-- Values under the names of columns that follow each other fill the slots that they fill in
order. -/
theorem fillByName_inOrder (hnodup : schema.names.Nodup) (done : List Column) {rest : List Column}
    (hcolumns : schema.columns = done ++ rest) (filled : List (Option Value))
    (hlength : filled.length = done.length) {values : List Value}
    (hfits : values.length ≤ rest.length) :
    fillByName schema (filled ++ rest.map fun _ => none)
        (((rest.map (·.name)).take values.length).zip values) =
      (fillInOrder rest values).map (filled ++ ·) := by
  induction rest generalizing done filled values with
  | nil =>
    obtain rfl := List.length_eq_zero_iff.1 (Nat.le_zero.1 hfits)
    rfl
  | cons column rest ih =>
    cases values with
    | nil => rfl
    | cons value values =>
      have hfield : schema.field? column.name = some (filled.length, column) := by
        apply Schema.field?_name hnodup
        rw [hcolumns, hlength]
        simp
      rw [List.map_cons, List.map_cons, List.length_cons, List.take_succ_cons, List.zip_cons_cons,
        fillByName, hfield]
      dsimp only
      rw [fillInOrder]
      cases check column value with
      | error fault => rfl
      | ok stored =>
        have hset : (filled ++ none :: rest.map fun _ => none).set filled.length (some stored) =
            (filled ++ [some stored]) ++ rest.map fun _ => none := by
          simp
        have hrest := ih (done ++ [column]) (by simp [hcolumns]) (filled ++ [some stored])
          (by simp [hlength]) (Nat.le_of_succ_le_succ hfits)
        refine (congrArg (fillByName schema · _) hset).trans (hrest.trans ?_)
        cases fillInOrder rest values with
        | error fault => rfl
        | ok slots => exact congrArg Except.ok (List.append_assoc ..)

/-- The leading columns may be named. -/
theorem slots_inOrder (hnodup : schema.names.Nodup) {values : List Value}
    (hfits : values.length ≤ schema.columns.length) :
    slots schema [] values = slots schema (schema.names.take values.length) values := by
  cases values with
  | nil => rfl
  | cons value values =>
    have hlength : (schema.names.take (value :: values).length).length =
        (value :: values).length := by
      rw [List.length_take, List.length_map]
      exact Nat.min_eq_left hfits
    have hnonempty : (schema.names.take (value :: values).length).isEmpty = false := by
      rw [List.isEmpty_eq_false_iff_exists_mem]
      exact List.exists_mem_of_length_pos (by rw [hlength]; exact Nat.succ_pos _)
    have hnamed := fillByName_inOrder hnodup [] rfl [] rfl hfits
    unfold slots
    rw [hnonempty, if_neg Bool.false_ne_true, if_neg (not_not.2 hlength),
      if_pos List.isEmpty_nil, if_neg (Nat.not_lt.2 hfits)]
    refine Eq.trans ?_ hnamed.symm
    cases fillInOrder schema.columns (value :: values) <;> rfl

/-- Pairs of names and values fill the slots one after another, also when there are none. -/
theorem slots_pairs (schema : Schema) (pairs : List (String × Value)) :
    slots schema (pairs.map (·.1)) (pairs.map (·.2)) =
      fillByName schema (schema.columns.map fun _ => none) pairs := by
  cases pairs with
  | nil => simp [slots, fillInOrder, fillByName]
  | cons pair pairs =>
    rw [slots, Props.zip_pairs]
    simp

/-- Named values can be filled in when each has a column that takes it. -/
theorem exists_fillByName (slots : List (Option Value)) {pairs : List (String × Value)}
    (h : ∀ pair ∈ pairs, ∃ i column value, schema.field? pair.1 = some (i, column) ∧
      check column pair.2 = .ok value) :
    ∃ filled, fillByName schema slots pairs = .ok filled := by
  induction pairs generalizing slots with
  | nil => exact ⟨slots, rfl⟩
  | cons pair pairs ih =>
    obtain ⟨⟨i, column, value, hfield, hcheck⟩, hrest⟩ := List.forall_mem_cons.1 h
    obtain ⟨filled, hfilled⟩ := ih (slots.set i (some value)) hrest
    refine ⟨filled, ?_⟩
    rw [fillByName, hfield]
    exact bind_eq_ok.2 ⟨value, hcheck, hfilled⟩

/-- Pairs under distinct names make the row that is made from them as properties. -/
theorem ofGiven_pairs_iff (hnodup : schema.names.Nodup) {pairs : List (String × Value)}
    (hdistinct : (pairs.map (·.1)).Nodup) :
    ofGiven schema (pairs.map (·.1)) (pairs.map (·.2)) = .ok row ↔
      MadeFrom schema (Props.ofPairs pairs) row := by
  constructor
  · intro hrow
    rw [← given_pairs schema pairs]
    exact madeFrom_ofGiven hnodup hrow
  · intro hmade
    have htaken (pair : String × Value) (hpair : pair ∈ pairs) : ∃ i column value,
        schema.field? pair.1 = some (i, column) ∧ check column pair.2 = .ok value := by
      obtain ⟨name, given⟩ := pair
      have hget := (Props.get?_ofPairs_eq_some hdistinct).2 hpair
      have hknown := hmade.known name (by rw [hget]; rfl)
      obtain ⟨i, hi⟩ := List.mem_iff_getElem?.1 hknown
      rw [List.getElem?_map] at hi
      obtain ⟨column, hcolumn, rfl⟩ := Option.map_eq_some_iff.1 hi
      obtain ⟨value, -, hstores⟩ := hmade.stores i column hcolumn
      rw [hget] at hstores
      exact ⟨i, column, value, Schema.field?_name hnodup hcolumn, hstores⟩
    obtain ⟨filled, hfilled⟩ :=
      exists_fillByName (schema.columns.map fun _ => none) htaken
    have hholds : Holds schema (Props.ofPairs pairs) filled :=
      holds_fillByName hnodup (holds_nil schema) hfilled
    rw [← slots_pairs] at hfilled
    refine bind_eq_ok.2 ⟨filled, hfilled, completeAll_eq_ok (filled_slots hfilled).length_eq
      hmade.length_eq fun i column slot value hcolumn hslot hvalue => ?_⟩
    obtain ⟨slot', hslot', hfits⟩ := hholds.fits i column hcolumn
    obtain rfl := Option.some.inj (hslot.symm.trans hslot')
    obtain ⟨value', hvalue', hstores⟩ := hmade.stores i column hcolumn
    obtain rfl := Option.some.inj (hvalue.symm.trans hvalue')
    cases hgiven : (Props.ofPairs pairs).get? column.name with
    | none =>
      rw [hgiven] at hfits hstores
      cases slot with
      | none => exact hstores
      | some stored => exact hfits.elim
    | some given =>
      rw [hgiven] at hfits hstores
      cases slot with
      | none => exact hfits.elim
      | some stored => exact congrArg Except.ok (Except.ok.inj (hfits.symm.trans hstores))

/-- Values in column order are stored, or refused, like the same values under the names of the
leading columns, and under distinct names the same bytes are stored in every order of the pairs. -/
theorem encode_by_name (hnodup : schema.names.Nodup) :
    (∀ values : List Value, values.length ≤ schema.columns.length →
      encode schema [] values = encode schema (schema.names.take values.length) values) ∧
    ∀ pairs others : List (String × Value), (pairs.map (·.1)).Nodup → pairs.Perm others →
      ∀ raw, encode schema (pairs.map (·.1)) (pairs.map (·.2)) = .ok raw ↔
        encode schema (others.map (·.1)) (others.map (·.2)) = .ok raw := by
  constructor
  · intro values hfits
    unfold encode ofGiven
    rw [slots_inOrder hnodup hfits]
  · intro pairs others hdistinct hperm raw
    have hdistinct' : (others.map (·.1)).Nodup := (hperm.map _).nodup_iff.1 hdistinct
    have hrow (row : Row) : ofGiven schema (pairs.map (·.1)) (pairs.map (·.2)) = .ok row ↔
        ofGiven schema (others.map (·.1)) (others.map (·.2)) = .ok row := by
      rw [ofGiven_pairs_iff hnodup hdistinct, ofGiven_pairs_iff hnodup hdistinct']
      exact madeFrom_congr (Props.get?_ofPairs_perm hdistinct hperm)
    unfold encode
    simp only [bind_eq_ok, hrow]

/-- A person is stored alike with the leading columns in order, with their names, and with the names
the other way round. -/
theorem encode_by_name_of_person :
    let schema : Schema := { columns := [
      { name := "name", ty := .string }, { name := "age", ty := .int8 },
      { name := "score", ty := .double, default := some (.float (Double.ofInt 1)) },
      { name := "nick", ty := .string, nullable := true }] }
    let raw := toBytes [.str "ann", .int 3, .float (Double.ofInt 1), .null]
    schema.names.Nodup ∧ encode schema [] [.str "ann", .int 3] = .ok raw ∧
      encode schema ["name", "age"] [.str "ann", .int 3] = .ok raw ∧
      encode schema ["age", "name"] [.int 3, .str "ann"] = .ok raw := by
  intro schema raw
  have hnodup : schema.names.Nodup := by decide
  obtain ⟨hinOrder, hpermuted⟩ := encode_by_name hnodup
  have hraw : encode schema [] [.str "ann", .int 3] = .ok raw := rfl
  have hnamed : encode schema ["name", "age"] [.str "ann", .int 3] = .ok raw :=
    (hinOrder [.str "ann", .int 3] (by decide)).symm.trans hraw
  exact ⟨hnodup, hraw, hnamed, (hpermuted [("name", .str "ann"), ("age", .int 3)]
    [("age", .int 3), ("name", .str "ann")] (by decide) (.swap ..) raw).1 hnamed⟩

end Row

end GraphStore
