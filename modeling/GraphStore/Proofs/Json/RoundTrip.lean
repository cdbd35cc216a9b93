import GraphStore.Proofs.Encoding.Utf8
import GraphStore.Proofs.Json.NumberText

/-!
# JSON text reads back

The text of a value is read back as it, as long as the value's integers and doubles have a literal
and its arrays and objects nest no deeper than a reader goes. A double that is not finite and a
value that cannot be read leave null in the text instead.
-/

namespace GraphStore.Json

mutual

/-- Whether the text of a value stands for it: every number in it has a literal of its own. -/
def isExact : Json → Bool
  | unreadable => false
  | int i => minInt ≤ i && i ≤ maxInt
  | float d => d.isFinite
  | arr items => areExact items
  | obj members => membersExact members
  | _ => true

/-- Whether the texts of all items stand for them. -/
def areExact : List Json → Bool
  | [] => true
  | item :: items => isExact item && areExact items

/-- Whether the texts of all members stand for them. -/
def membersExact : List (String × Json) → Bool
  | [] => true
  | (_, value) :: members => isExact value && membersExact members

end

mutual

/-- How deep arrays and objects nest in a value. -/
def nesting : Json → Nat
  | arr items => itemsNesting items + 1
  | obj members => membersNesting members + 1
  | _ => 0

/-- How deep arrays and objects nest in items. -/
def itemsNesting : List Json → Nat
  | [] => 0
  | item :: items => max (nesting item) (itemsNesting items)

/-- How deep arrays and objects nest in members. -/
def membersNesting : List (String × Json) → Nat
  | [] => 0
  | (_, value) :: members => max (nesting value) (membersNesting members)

end

/-- A hexadecimal digit is read as written. -/
theorem hexDigit?_digitChar : ∀ n < 16, hexDigit? (Nat.digitChar n) = some n := by
  decide

/-- A written character is read as it. -/
theorem readChars_escape (c : Char) (cs : List Char) :
    readChars (escape c ++ cs) = (readChars cs).map fun (read, rest) => (c :: read, rest) := by
  have hletter {letter : Char} (hu : letter ≠ 'u') (hescaped : escaped? letter = some c) :
      readChars ('\\' :: letter :: cs) =
        (readChars cs).map fun (read, rest) => (c :: read, rest) := by
    rw [readChars.eq_3 _ _ (by simp [hu]), hescaped]
    cases readChars cs <;> rfl
  unfold escape
  by_cases hquote : c = '"'
  · subst hquote
    exact hletter (by decide) rfl
  rw [if_neg hquote]
  by_cases hslash : c = '\\'
  · subst hslash
    exact hletter (by decide) rfl
  rw [if_neg hslash]
  split
  · next hc => exact hc ▸ hletter (by decide) (hc ▸ rfl)
  split
  · next hc => exact hc ▸ hletter (by decide) (hc ▸ rfl)
  split
  · next hc => exact hc ▸ hletter (by decide) (hc ▸ rfl)
  split
  · next hc => exact hc ▸ hletter (by decide) (hc ▸ rfl)
  split
  · next hc => exact hc ▸ hletter (by decide) (hc ▸ rfl)
  split
  · next hcontrol =>
    have hhigh := hexDigit?_digitChar (c.toNat / 16) (by omega)
    have hlow := hexDigit?_digitChar (c.toNat % 16) (by omega)
    have hzero : hexDigit? '0' = some 0 := rfl
    have hunit : hexUnit? '0' '0' (Nat.digitChar (c.toNat / 16)) (Nat.digitChar (c.toNat % 16)) =
        some c.toNat := by
      simp only [hexUnit?, hzero, hhigh, hlow, Option.bind_eq_bind, Option.bind_some,
        Option.some.injEq]
      omega
    simp only [List.cons_append, List.nil_append, readChars, hunit]
    rw [if_neg (by omega), if_neg (by omega), Char.ofNat_toNat]
    cases readChars cs <;> rfl
  · next hplain =>
    rw [List.singleton_append, readChars.eq_def]
    split
    · next heq => exact absurd (List.cons.inj heq).1 hquote
    · next heq => exact absurd (List.cons.inj heq).1 hslash
    · next heq => exact absurd (List.cons.inj heq).1 hslash
    · next heq =>
      obtain ⟨rfl, rfl⟩ := List.cons.inj heq
      rw [if_neg (by simpa [hslash] using hplain)]
      cases readChars cs <;> rfl
    · next heq => cases heq

/-- The characters of a quoted string are read up to its quote. -/
theorem readChars_flatMap_escape (text rest : List Char) :
    readChars (text.flatMap escape ++ '"' :: rest) = some (text, rest) := by
  induction text with
  | nil => simp [readChars]
  | cons c text ih =>
    rw [List.flatMap_cons, List.append_assoc, readChars_escape, ih]
    rfl

/-- Nothing is skipped in front of a character that is no blank. -/
theorem skipBlanks_cons {c : Char} (hc : c ≠ ' ' ∧ c ≠ '\n' ∧ c ≠ '\r' ∧ c ≠ '\t')
    (rest : List Char) : skipBlanks (c :: rest) = c :: rest := by
  obtain ⟨hspace, hline, hreturn, htab⟩ := hc
  simp [skipBlanks, hspace, hline, hreturn, htab]

/-- A value begins with no blank, and with nothing that ends an array or object. -/
def BeginsValue (cs : List Char) : Prop :=
  ∃ c tail, cs = c :: tail ∧ c ≠ ' ' ∧ c ≠ '\n' ∧ c ≠ '\r' ∧ c ≠ '\t' ∧ c ≠ ']' ∧ c ≠ '}'

/-- Nothing is skipped in front of a value. -/
theorem skipBlanks_of_beginsValue {cs : List Char} (h : BeginsValue cs) : skipBlanks cs = cs := by
  obtain ⟨c, tail, rfl, hspace, hline, hreturn, htab, -⟩ := h
  exact skipBlanks_cons ⟨hspace, hline, hreturn, htab⟩ tail

/-- A number begins with a sign or a digit. -/
theorem head_of_readNumber {cs : List Char} {result : Json × List Char}
    (h : readNumber cs = some result) : ∃ c tail, cs = c :: tail ∧ (c = '-' ∨ c.isDigit = true) := by
  cases cs with
  | nil => simp [readNumber, readUnsigned] at h
  | cons c tail =>
    refine ⟨c, tail, rfl, ?_⟩
    by_contra hc
    rw [not_or] at hc
    rw [readNumber.eq_def] at h
    split at h
    · next heq => exact hc.1 (List.cons.inj heq).1
    · simp [readUnsigned, List.span_eq_takeWhile_dropWhile, hc.2] at h

/-- A number is read as a value, at any depth. -/
theorem readValue_of_readNumber (member : Reader Json → Reader (String × Json)) (bound depth : Nat)
    {cs : List Char} {result : Json × List Char} (h : readNumber cs = some result) :
    readValue member bound depth cs = some result ∧ BeginsValue cs := by
  obtain ⟨c, tail, rfl, hc⟩ := head_of_readNumber h
  have hne (other : Char) (hminus : other ≠ '-') (hdigit : other.isDigit = false) : c ≠ other := by
    rintro rfl
    rcases hc with hc | hc
    · exact hminus hc
    · rw [hdigit] at hc
      cases hc
  have hbegins : BeginsValue (c :: tail) :=
    ⟨c, tail, rfl, hne _ (by decide) rfl, hne _ (by decide) rfl, hne _ (by decide) rfl,
      hne _ (by decide) rfl, hne _ (by decide) rfl, hne _ (by decide) rfl⟩
  have hscalar : readScalar (c :: tail) = some result := by
    rw [readScalar.eq_def]
    split
    · next heq => exact absurd (List.cons.inj heq).1 (hne 'n' (by decide) rfl)
    · next heq => exact absurd (List.cons.inj heq).1 (hne 't' (by decide) rfl)
    · next heq => exact absurd (List.cons.inj heq).1 (hne 'f' (by decide) rfl)
    · next heq => exact absurd (List.cons.inj heq).1 (hne '"' (by decide) rfl)
    · exact h
  refine ⟨?_, hbegins⟩
  cases depth with
  | zero => rw [readValue, skipBlanks_of_beginsValue hbegins, hscalar]
  | succ depth =>
    rw [readValue, skipBlanks_of_beginsValue hbegins]
    split
    · next heq => exact absurd (List.cons.inj heq).1 (hne '[' (by decide) rfl)
    · next heq => exact absurd (List.cons.inj heq).1 (hne '{' (by decide) rfl)
    · exact hscalar

/-- A quoted string is read as a value, at any depth. -/
theorem readValue_quoted (member : Reader Json → Reader (String × Json)) (bound depth : Nat)
    (s : String) (rest : List Char) :
    readValue member bound depth (quoted s ++ rest) = some (str s, rest) := by
  have htext : quoted s ++ rest = '"' :: (s.toList.flatMap escape ++ '"' :: rest) := by
    simp [quoted]
  have hscalar : readScalar (quoted s ++ rest) = some (str s, rest) := by
    rw [htext, readScalar, readChars_flatMap_escape]
    simp
  rw [htext] at hscalar ⊢
  cases depth with
  | zero => exact hscalar
  | succ depth => exact hscalar

/-- What follows a value inside an array or object does not go on with a number. -/
theorem endsNumber_cons {c : Char} (hc : c = ',' ∨ c = ']' ∨ c = '}') (rest : List Char) :
    EndsNumber (c :: rest) := by
  intro d hd
  obtain rfl : c = d := Option.some.inj hd
  rcases hc with rfl | rfl | rfl <;> decide

/-- The rest of an array does not go on with a number. -/
theorem endsNumber_itemsText (items : List Json) (rest : List Char) :
    EndsNumber (itemsText items ++ rest) := by
  cases items with
  | nil => exact endsNumber_cons (by simp) rest
  | cons item items => exact endsNumber_cons (by simp) _

/-- The rest of an object does not go on with a number. -/
theorem endsNumber_membersText (members : List (String × Json)) (rest : List Char) :
    EndsNumber (membersText members ++ rest) := by
  cases members with
  | nil => exact endsNumber_cons (by simp) rest
  | cons member members => exact endsNumber_cons (by simp) _

/-- The text of an exact value begins a value. -/
theorem beginsValue_text {j : Json} (hexact : j.isExact = true) (rest : List Char)
    (hrest : EndsNumber rest) : BeginsValue (j.text ++ rest) := by
  cases j with
  | null => exact ⟨'n', _, rfl, by decide⟩
  | bool b => cases b <;> exact ⟨_, _, rfl, by decide⟩
  | int i =>
    obtain ⟨hmin, hmax⟩ := Bool.and_eq_true_iff.1 hexact
    exact (readValue_of_readNumber readMember 0 0
      (readNumber_intText (of_decide_eq_true hmin) (of_decide_eq_true hmax) hrest)).2
  | float d =>
    have hfinite : d.isFinite = true := hexact
    simp only [text, if_pos hfinite]
    exact (readValue_of_readNumber readMember 0 0 (readNumber_text hfinite hrest)).2
  | str s => exact ⟨'"', _, rfl, by decide⟩
  | arr items => cases items <;> exact ⟨'[', _, rfl, by decide⟩
  | obj members => cases members <;> exact ⟨'{', _, rfl, by decide⟩
  | unreadable => cases hexact

/-- A member is read as its name and what the reader of values makes of the rest. -/
theorem readMember_quoted (item : Reader Json) (name : String) (cs : List Char) :
    readMember item (quoted name ++ ':' :: cs) =
      (item cs).map fun (value, rest) => ((name, value), rest) := by
  have htext : quoted name ++ ':' :: cs =
      '"' :: (name.toList.flatMap escape ++ '"' :: ':' :: cs) := by
    simp [quoted]
  simp only [readMember, htext, skipBlanks_cons (c := '"') (by decide), readChars_flatMap_escape,
    Option.bind_eq_bind, Option.bind_some, skipBlanks_cons (c := ':') (by decide),
    String.ofList_toList]
  cases item cs <;> rfl

/-- A filled array is read item by item, a level less deep. -/
theorem readValue_arr_text (bound depth : Nat) {item : Json} (hexact : item.isExact = true)
    (items : List Json) (rest : List Char) :
    readValue readMember bound (depth + 1) ((arr (item :: items)).text ++ rest) =
      (readItems (readValue readMember bound depth) bound
        (item.text ++ (itemsText items ++ rest))).map fun (items, rest) => (arr items, rest) := by
  have hbegins : BeginsValue (item.text ++ (itemsText items ++ rest)) :=
    beginsValue_text hexact _ (endsNumber_itemsText items rest)
  have htext : (arr (item :: items)).text ++ rest =
      '[' :: (item.text ++ (itemsText items ++ rest)) := by
    simp [text]
  rw [htext, readValue, skipBlanks_cons (by decide)]
  simp only [skipBlanks_of_beginsValue hbegins]
  -- The first item does not begin with the bracket that ends an empty array.
  obtain ⟨c, tail, hhead, -, -, -, -, hclose, -⟩ := hbegins
  rw [hhead]
  split
  · next heq => exact absurd (List.cons.inj heq).1 hclose
  · rfl

/-- A filled object is read member by member, a level less deep. -/
theorem readValue_obj_text (bound depth : Nat) (member : String × Json)
    (members : List (String × Json)) (rest : List Char) :
    readValue readMember bound (depth + 1) ((obj (member :: members)).text ++ rest) =
      (readMembers (readMember (readValue readMember bound depth)) bound
        (quoted member.1 ++ ':' :: (member.2.text ++ (membersText members ++ rest)))).map
          fun (members, rest) => (obj members, rest) := by
  have htext : (obj (member :: members)).text ++ rest =
      '{' :: (quoted member.1 ++ ':' :: (member.2.text ++ (membersText members ++ rest))) := by
    simp [text]
  have hname : quoted member.1 = '"' :: (member.1.toList.flatMap escape ++ ['"']) := rfl
  rw [htext, readValue, skipBlanks_cons (by decide)]
  simp only [hname, List.cons_append, skipBlanks_cons (c := '"') (by decide)]
  rfl

/-- Items of an exact array are exact, nest less deep and have shorter texts. -/
theorem item_bounds {items : List Json} {j : Json} (hj : j ∈ items) :
    (areExact items = true → j.isExact = true) ∧ j.nesting ≤ itemsNesting items ∧
      j.text.length < (itemsText items).length := by
  induction items with
  | nil => cases hj
  | cons item items ih =>
    simp only [areExact, itemsNesting, itemsText, Bool.and_eq_true, List.cons_append,
      List.length_cons, List.length_append]
    rcases List.mem_cons.1 hj with rfl | hj
    · exact ⟨fun h => h.1, by omega, by omega⟩
    · obtain ⟨hexact, hnesting, hlength⟩ := ih hj
      exact ⟨fun h => hexact h.2, by omega, by omega⟩

/-- Members of an exact object are exact, nest less deep and have shorter texts. -/
theorem member_bounds {members : List (String × Json)} {member : String × Json}
    (hmember : member ∈ members) :
    (membersExact members = true → member.2.isExact = true) ∧
      member.2.nesting ≤ membersNesting members ∧
      member.2.text.length < (membersText members).length := by
  induction members with
  | nil => cases hmember
  | cons first members ih =>
    simp only [membersExact, membersNesting, membersText, Bool.and_eq_true, List.cons_append,
      List.length_cons, List.length_append]
    rcases List.mem_cons.1 hmember with rfl | hmember
    · exact ⟨fun h => h.1, by omega, by omega⟩
    · obtain ⟨hexact, hnesting, hlength⟩ := ih hmember
      exact ⟨fun h => hexact h.2, by omega, by omega⟩

/-- The rest of an array takes a character for each item and one more. -/
theorem length_lt_length_itemsText (items : List Json) :
    items.length < (itemsText items).length := by
  induction items with
  | nil => exact Nat.one_pos
  | cons item items ih =>
    simp only [itemsText, List.length_cons, List.cons_append, List.length_append]
    omega

/-- The rest of an object takes a character for each member and one more. -/
theorem length_lt_length_membersText (members : List (String × Json)) :
    members.length < (membersText members).length := by
  induction members with
  | nil => exact Nat.one_pos
  | cons member members ih =>
    simp only [membersText, List.length_cons, List.cons_append, List.length_append]
    omega

/-- Items are read as they are when each of them is. -/
theorem readItems_text {read : Reader Json} (count : Nat) (item : Json) (items : List Json)
    (hread : ∀ j ∈ item :: items, ∀ rest, EndsNumber rest →
      read (j.text ++ rest) = some (j, rest))
    (hcount : items.length < count) (rest : List Char) :
    readItems read count (item.text ++ (itemsText items ++ rest)) = some (item :: items, rest) := by
  induction items generalizing count item with
  | nil =>
    obtain ⟨count, rfl⟩ := Nat.exists_eq_succ_of_ne_zero (Nat.ne_zero_of_lt hcount)
    rw [readItems, hread item List.mem_cons_self _ (endsNumber_itemsText [] rest)]
    rfl
  | cons next items ih =>
    obtain ⟨count, rfl⟩ := Nat.exists_eq_succ_of_ne_zero (Nat.ne_zero_of_lt hcount)
    have hnext := ih count next (fun j hj => hread j (List.mem_cons_of_mem _ hj))
      (Nat.lt_of_succ_lt_succ hcount)
    rw [readItems, hread item List.mem_cons_self _ (endsNumber_itemsText (next :: items) rest)]
    simp only [itemsText, List.cons_append, List.append_assoc,
      skipBlanks_cons (c := ',') (by decide), Option.bind_eq_bind, Option.bind_some, hnext]

/-- Members are read as they are when the value of each of them is. -/
theorem readMembers_text {read : Reader Json} (count : Nat) (member : String × Json)
    (members : List (String × Json))
    (hread : ∀ m ∈ member :: members, ∀ rest, EndsNumber rest →
      read (m.2.text ++ rest) = some (m.2, rest))
    (hcount : members.length < count) (rest : List Char) :
    readMembers (readMember read) count
      (quoted member.1 ++ ':' :: (member.2.text ++ (membersText members ++ rest))) =
        some (member :: members, rest) := by
  induction members generalizing count member with
  | nil =>
    obtain ⟨count, rfl⟩ := Nat.exists_eq_succ_of_ne_zero (Nat.ne_zero_of_lt hcount)
    rw [readMembers, readMember_quoted,
      hread member List.mem_cons_self _ (endsNumber_membersText [] rest)]
    rfl
  | cons next members ih =>
    obtain ⟨count, rfl⟩ := Nat.exists_eq_succ_of_ne_zero (Nat.ne_zero_of_lt hcount)
    have hnext := ih count next (fun m hm => hread m (List.mem_cons_of_mem _ hm))
      (Nat.lt_of_succ_lt_succ hcount)
    rw [readMembers, readMember_quoted,
      hread member List.mem_cons_self _ (endsNumber_membersText (next :: members) rest)]
    simp only [membersText, List.cons_append, List.append_assoc, Option.map_some,
      skipBlanks_cons (c := ',') (by decide), Option.bind_eq_bind, Option.bind_some, hnext]

/-- The text of an exact value that nests no deeper than the reader goes is read as it. -/
theorem readValue_text (j : Json) (hexact : j.isExact = true) {bound depth : Nat}
    (hdepth : j.nesting ≤ depth) (hbound : j.text.length ≤ bound) {rest : List Char}
    (hrest : EndsNumber rest) :
    readValue readMember bound depth (j.text ++ rest) = some (j, rest) := by
  induction depth using Nat.strongRecOn generalizing j rest with
  | ind depth ih =>
    cases j with
    | null => cases depth <;> rfl
    | bool b => cases b <;> cases depth <;> rfl
    | int i =>
      obtain ⟨hmin, hmax⟩ := Bool.and_eq_true_iff.1 hexact
      exact (readValue_of_readNumber readMember bound depth
        (readNumber_intText (of_decide_eq_true hmin) (of_decide_eq_true hmax) hrest)).1
    | float d =>
      have hfinite : d.isFinite = true := hexact
      simp only [text, if_pos hfinite]
      exact (readValue_of_readNumber readMember bound depth (readNumber_text hfinite hrest)).1
    | str s => exact readValue_quoted readMember bound depth s rest
    | arr items =>
      obtain ⟨depth, rfl⟩ : ∃ n, depth = n + 1 := ⟨depth - 1, by simp [nesting] at hdepth; omega⟩
      cases items with
      | nil => rfl
      | cons item items =>
        have hexact : areExact (item :: items) = true := hexact
        have hnesting : itemsNesting (item :: items) ≤ depth := Nat.le_of_succ_le_succ hdepth
        have hlength : (itemsText (item :: items)).length ≤ bound := by
          simpa [text, itemsText] using hbound
        have hread : ∀ j ∈ item :: items, ∀ rest, EndsNumber rest →
            readValue readMember bound depth (j.text ++ rest) = some (j, rest) := by
          intro j hj rest hrest
          obtain ⟨hjexact, hjnesting, hjlength⟩ := item_bounds hj
          exact ih depth (Nat.lt_succ_self _) j (hjexact hexact) (hjnesting.trans hnesting)
            (by omega) hrest
        have hitems := readItems_text bound item items hread
          (Nat.lt_of_succ_lt ((length_lt_length_itemsText (item :: items)).trans_le hlength)) rest
        rw [readValue_arr_text bound depth (Bool.and_eq_true_iff.1 hexact).1, hitems]
        rfl
    | obj members =>
      obtain ⟨depth, rfl⟩ : ∃ n, depth = n + 1 := ⟨depth - 1, by simp [nesting] at hdepth; omega⟩
      cases members with
      | nil => rfl
      | cons member members =>
        have hexact : membersExact (member :: members) = true := hexact
        have hnesting : membersNesting (member :: members) ≤ depth := Nat.le_of_succ_le_succ hdepth
        have hlength : (membersText (member :: members)).length ≤ bound := by
          simpa [text, membersText] using hbound
        have hread : ∀ m ∈ member :: members, ∀ rest, EndsNumber rest →
            readValue readMember bound depth (m.2.text ++ rest) = some (m.2, rest) := by
          intro m hm rest hrest
          obtain ⟨hmexact, hmnesting, hmlength⟩ := member_bounds hm
          exact ih depth (Nat.lt_succ_self _) m.2 (hmexact hexact) (hmnesting.trans hnesting)
            (by omega) hrest
        have hmembers := readMembers_text bound member members hread
          (Nat.lt_of_succ_lt ((length_lt_length_membersText (member :: members)).trans_le hlength))
          rest
        rw [readValue_obj_text, hmembers]
        rfl
    | unreadable => cases hexact

/-- The text of an exact value that nests at most as deep as a document may is read as it. -/
theorem parse?_text {j : Json} (hexact : j.isExact = true) (hdepth : j.nesting ≤ maxDepth) :
    parse? j.text = some j := by
  have hread : readValue readMember j.text.length maxDepth (j.text ++ []) = some (j, []) :=
    readValue_text j hexact hdepth le_rfl (by simp [EndsNumber])
  rw [List.append_nil] at hread
  rw [parse?, parseWith?, hread]
  rfl

/-- The bytes of an exact value that nests at most as deep as a document may are read as it. -/
theorem ofBytes?_toBytes {j : Json} (hexact : j.isExact = true) (hdepth : j.nesting ≤ maxDepth) :
    ofBytes? j.toBytes = some j := by
  rw [ofBytes?, toBytes, Utf8.decode?_encode, Option.bind_some, parse?_text hexact hdepth]

end GraphStore.Json
