import GraphStore.Proofs.Json.RoundTrip

/-!
# What a text stands for

A value and what its text stands for differ only where the text says null for a double that is
not finite and for a value that cannot be read. The two have the same text, so reading a document
gives what its text stands for, and nothing when its arrays and objects nest too deep.
-/

namespace GraphStore.Json

mutual

/-- The value that the text of a value stands for. -/
def written : Json → Json
  | unreadable => null
  | float d => if d.isFinite then float d else null
  | arr items => arr (writtenItems items)
  | obj members => obj (writtenMembers members)
  | j => j

/-- The values that the texts of items stand for. -/
def writtenItems : List Json → List Json
  | [] => []
  | item :: items => written item :: writtenItems items

/-- The members that the texts of members stand for. -/
def writtenMembers : List (String × Json) → List (String × Json)
  | [] => []
  | (name, value) :: members => (name, written value) :: writtenMembers members

end

mutual

/-- A value and what its text stands for have the same text. -/
theorem text_written : ∀ j : Json, j.written.text = j.text
  | null | bool _ | int _ | str _ | unreadable => rfl
  | float d => by
    by_cases hfinite : d.isFinite = true <;> simp [written, text, hfinite]
  | arr [] | obj [] => rfl
  | arr (item :: items) => by
    simp only [written, writtenItems, text, text_written item, itemsText_written items]
  | obj ((_, value) :: members) => by
    simp only [written, writtenMembers, text, text_written value, membersText_written members]

/-- Items and what their texts stand for have the same texts. -/
theorem itemsText_written : ∀ items, itemsText (writtenItems items) = itemsText items
  | [] => rfl
  | item :: items => by
    simp only [writtenItems, itemsText, text_written item, itemsText_written items]

/-- Members and what their texts stand for have the same texts. -/
theorem membersText_written : ∀ members, membersText (writtenMembers members) = membersText members
  | [] => rfl
  | (_, value) :: members => by
    simp only [writtenMembers, membersText, text_written value, membersText_written members]

end

mutual

/-- A value and what its text stands for nest as deep as each other. -/
theorem nesting_written : ∀ j : Json, j.written.nesting = j.nesting
  | null | bool _ | int _ | str _ | unreadable => rfl
  | float d => by
    by_cases hfinite : d.isFinite = true <;> simp [written, nesting, hfinite]
  | arr items => by simp only [written, nesting, itemsNesting_written items]
  | obj members => by simp only [written, nesting, membersNesting_written members]

/-- Items and what their texts stand for nest as deep as each other. -/
theorem itemsNesting_written : ∀ items, itemsNesting (writtenItems items) = itemsNesting items
  | [] => rfl
  | item :: items => by
    simp only [writtenItems, itemsNesting, nesting_written item, itemsNesting_written items]

/-- Members and what their texts stand for nest as deep as each other. -/
theorem membersNesting_written :
    ∀ members, membersNesting (writtenMembers members) = membersNesting members
  | [] => rfl
  | (_, value) :: members => by
    simp only [writtenMembers, membersNesting, nesting_written value,
      membersNesting_written members]

end

mutual

/-- An exact value can be read. -/
theorem isReadable_of_isExact : ∀ j : Json, j.isExact = true → j.isReadable = true
  | null, _ | bool _, _ | int _, _ | float _, _ | str _, _ => rfl
  | arr items, h => areReadable_of_areExact items h
  | obj members, h => membersReadable_of_membersExact members h
  | unreadable, h => absurd h Bool.false_ne_true

/-- Exact items can be read. -/
theorem areReadable_of_areExact : ∀ items, areExact items = true → areReadable items = true
  | [], _ => rfl
  | item :: items, h => by
    obtain ⟨hitem, hitems⟩ := Bool.and_eq_true_iff.1 h
    rw [areReadable, isReadable_of_isExact item hitem, areReadable_of_areExact items hitems]
    rfl

/-- Exact members can be read. -/
theorem membersReadable_of_membersExact :
    ∀ members, membersExact members = true → membersReadable members = true
  | [], _ => rfl
  | (_, value) :: members, h => by
    obtain ⟨hvalue, hmembers⟩ := Bool.and_eq_true_iff.1 h
    rw [membersReadable, isReadable_of_isExact value hvalue,
      membersReadable_of_membersExact members hmembers]
    rfl

end

section Deep

variable {read : Reader Json} {depth : Nat}

/-- Items of which one nests too deep are refused, when those before it are read as they are. -/
theorem readItems_text_of_deep (count : Nat) (item : Json) (items : List Json)
    (hshallow : ∀ j ∈ item :: items, j.nesting ≤ depth → ∀ rest, EndsNumber rest →
      read (j.text ++ rest) = some (j, rest))
    (hdeep : ∀ j ∈ item :: items, depth < j.nesting → ∀ rest, EndsNumber rest →
      read (j.text ++ rest) = none)
    (hnesting : depth < itemsNesting (item :: items)) (rest : List Char) :
    readItems read count (item.text ++ (itemsText items ++ rest)) = none := by
  induction items generalizing count item with
  | nil =>
    have hitem : depth < item.nesting := by simpa [itemsNesting] using hnesting
    cases count with
    | zero => rfl
    | succ count =>
      rw [readItems, hdeep item List.mem_cons_self hitem _ (endsNumber_itemsText [] rest)]
      rfl
  | cons next items ih =>
    cases count with
    | zero => rfl
    | succ count =>
      have hends := endsNumber_itemsText (next :: items) rest
      by_cases hitem : item.nesting ≤ depth
      · have hitems : depth < itemsNesting (next :: items) := by
          rw [itemsNesting] at hnesting
          omega
        have hnext := ih count next (fun j hj => hshallow j (List.mem_cons_of_mem _ hj))
          (fun j hj => hdeep j (List.mem_cons_of_mem _ hj)) hitems
        rw [readItems, hshallow item List.mem_cons_self hitem _ hends]
        simp only [itemsText, List.cons_append, List.append_assoc,
          skipBlanks_cons (c := ',') (by decide), Option.bind_eq_bind, Option.bind_some, hnext,
          Option.bind_none]
      · rw [readItems, hdeep item List.mem_cons_self (Nat.lt_of_not_le hitem) _ hends]
        rfl

/-- Members of which one nests too deep are refused, when those before it are read as they are. -/
theorem readMembers_text_of_deep (count : Nat) (member : String × Json)
    (members : List (String × Json))
    (hshallow : ∀ m ∈ member :: members, m.2.nesting ≤ depth → ∀ rest, EndsNumber rest →
      read (m.2.text ++ rest) = some (m.2, rest))
    (hdeep : ∀ m ∈ member :: members, depth < m.2.nesting → ∀ rest, EndsNumber rest →
      read (m.2.text ++ rest) = none)
    (hnesting : depth < membersNesting (member :: members)) (rest : List Char) :
    readMembers (readMember read) count
      (quoted member.1 ++ ':' :: (member.2.text ++ (membersText members ++ rest))) = none := by
  induction members generalizing count member with
  | nil =>
    have hmember : depth < member.2.nesting := by simpa [membersNesting] using hnesting
    cases count with
    | zero => rfl
    | succ count =>
      rw [readMembers, readMember_quoted,
        hdeep member List.mem_cons_self hmember _ (endsNumber_membersText [] rest)]
      rfl
  | cons next members ih =>
    cases count with
    | zero => rfl
    | succ count =>
      have hends := endsNumber_membersText (next :: members) rest
      by_cases hmember : member.2.nesting ≤ depth
      · have hmembers : depth < membersNesting (next :: members) := by
          rw [membersNesting] at hnesting
          omega
        have hnext := ih count next (fun m hm => hshallow m (List.mem_cons_of_mem _ hm))
          (fun m hm => hdeep m (List.mem_cons_of_mem _ hm)) hmembers
        rw [readMembers, readMember_quoted, hshallow member List.mem_cons_self hmember _ hends]
        simp only [membersText, List.cons_append, List.append_assoc, Option.map_some,
          skipBlanks_cons (c := ',') (by decide), Option.bind_eq_bind, Option.bind_some, hnext,
          Option.bind_none]
      · rw [readMembers, readMember_quoted,
          hdeep member List.mem_cons_self (Nat.lt_of_not_le hmember) _ hends]
        rfl

end Deep

/-- The text of an exact value that nests deeper than the reader goes is refused. -/
theorem readValue_text_of_deep (j : Json) (hexact : j.isExact = true) {bound depth : Nat}
    (hdepth : depth < j.nesting) (hbound : j.text.length ≤ bound) {rest : List Char}
    (hrest : EndsNumber rest) :
    readValue readMember bound depth (j.text ++ rest) = none := by
  induction depth generalizing j rest with
  | zero =>
    -- No scalar begins with a bracket or a brace.
    cases j with
    | arr items => cases items <;> rfl
    | obj members => cases members <;> rfl
    | _ => exact absurd hdepth (Nat.lt_irrefl 0)
  | succ depth ih =>
    cases j with
    | arr items =>
      have hnesting : depth < itemsNesting items := Nat.lt_of_succ_lt_succ hdepth
      cases items with
      | nil => exact absurd hnesting (Nat.not_lt_zero _)
      | cons item items =>
        have hexact : areExact (item :: items) = true := hexact
        have hlength : (itemsText (item :: items)).length ≤ bound := by
          simpa [text, itemsText] using hbound
        have hitems := readItems_text_of_deep bound item items
          (fun j hj hshallow rest hrest =>
            readValue_text j ((item_bounds hj).1 hexact) hshallow
              ((item_bounds hj).2.2.le.trans hlength) hrest)
          (fun j hj hdeep rest hrest =>
            ih j ((item_bounds hj).1 hexact) hdeep ((item_bounds hj).2.2.le.trans hlength) hrest)
          hnesting rest
        rw [readValue_arr_text bound depth (Bool.and_eq_true_iff.1 hexact).1, hitems]
        rfl
    | obj members =>
      have hnesting : depth < membersNesting members := Nat.lt_of_succ_lt_succ hdepth
      cases members with
      | nil => exact absurd hnesting (Nat.not_lt_zero _)
      | cons member members =>
        have hexact : membersExact (member :: members) = true := hexact
        have hlength : (membersText (member :: members)).length ≤ bound := by
          simpa [text, membersText] using hbound
        have hmembers := readMembers_text_of_deep bound member members
          (fun m hm hshallow rest hrest =>
            readValue_text m.2 ((member_bounds hm).1 hexact) hshallow
              ((member_bounds hm).2.2.le.trans hlength) hrest)
          (fun m hm hdeep rest hrest =>
            ih m.2 ((member_bounds hm).1 hexact) hdeep ((member_bounds hm).2.2.le.trans hlength)
              hrest)
          hnesting rest
        rw [readValue_obj_text, hmembers]
        rfl
    | _ => exact absurd hdepth (Nat.not_lt_zero _)

/-- The bytes of a value are read as what its text stands for, unless it nests too deep. -/
theorem ofBytes?_toBytes_eq {j : Json} (hexact : j.written.isExact = true) :
    ofBytes? j.toBytes = if j.nesting ≤ maxDepth then some j.written else none := by
  have hbytes : j.toBytes = j.written.toBytes := by rw [toBytes, toBytes, text_written]
  rw [hbytes]
  split
  · next hdepth => exact ofBytes?_toBytes hexact ((nesting_written j).trans_le hdepth)
  · next hdepth =>
    have hdeep : maxDepth < j.written.nesting := by
      rw [nesting_written]
      exact Nat.lt_of_not_le hdepth
    have hread : readValue readMember j.written.text.length maxDepth (j.written.text ++ []) =
        none :=
      readValue_text_of_deep j.written hexact hdeep le_rfl (by simp [EndsNumber])
    rw [List.append_nil] at hread
    rw [ofBytes?, toBytes, Utf8.decode?_encode, Option.bind_some, parse?, parseWith?, hread]

end GraphStore.Json
