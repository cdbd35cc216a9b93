import GraphStore.Json.Reader
import GraphStore.Json.Writer
import GraphStore.Proofs.Number.Rounding
import Mathlib.Data.List.TakeWhile

/-!
# Number literals read back

Reading cuts a literal into whole part, fraction and exponent, and its value depends on the number
they spell alone. The literals written for integers and for finite doubles therefore read back as
what they were written for, in front of anything that does not go on with a number.

For doubles this is the exactness that is assumed of the reader: it goes to the nearest double in one
step. All that is said elsewhere of finite doubles in stored rows comes from `readNumber_text`.
-/

namespace GraphStore.Json

/-- Digits only. -/
def AllDigits (digits : List Char) : Prop := ∀ c ∈ digits, c.isDigit = true

/-- What follows does not go on with a number. -/
def EndsNumber (rest : List Char) : Prop :=
  ∀ c ∈ rest.head?, c.isDigit = false ∧ c ≠ '.' ∧ c ≠ 'e' ∧ c ≠ 'E'

/-- Digits are taken up to the first character that is none. -/
theorem span_allDigits {digits rest : List Char} (hdigits : AllDigits digits)
    (hrest : ∀ c ∈ rest.head?, c.isDigit = false) :
    (digits ++ rest).span Char.isDigit = (digits, rest) := by
  rw [List.span_eq_takeWhile_dropWhile, List.takeWhile_append_of_pos hdigits,
    List.dropWhile_append_of_pos hdigits]
  cases rest with
  | nil => simp
  | cons c rest =>
    have hc : c.isDigit = false := hrest c rfl
    simp [hc]

/-- The value of digits is the library's. -/
theorem digitsValue_eq (digits : List Char) : digitsValue digits = Nat.ofDigitChars 10 digits 0 := by
  rw [digitsValue, Nat.ofDigitChars_eq_foldl]
  congr 1
  funext n c
  rw [Nat.mul_comm]

/-- The digits written for a number are digits. -/
theorem allDigits_toDigits (n : Nat) : AllDigits (Nat.toDigits 10 n) := fun _ hc =>
  Nat.isDigit_of_mem_toDigits (by decide) (by decide) hc

/-- Digits written for a number spell it. -/
@[simp] theorem digitsValue_toDigits (n : Nat) : digitsValue (Nat.toDigits 10 n) = n := by
  rw [digitsValue_eq, Nat.ofDigitChars_ten_toDigits]

/-- Zeros behind digits multiply what they spell. -/
theorem digitsValue_append_zeros (digits : List Char) (count : Nat) :
    digitsValue (digits ++ List.replicate count '0') = digitsValue digits * 10 ^ count := by
  rw [digitsValue_eq, digitsValue_eq, Nat.ofDigitChars_append, Nat.ofDigitChars_replicate_zero,
    Nat.mul_comm]

/-- Zeros in front of digits say nothing. -/
theorem digitsValue_zeros_append (digits : List Char) (count : Nat) :
    digitsValue (List.replicate count '0' ++ digits) = digitsValue digits := by
  rw [digitsValue_eq, digitsValue_eq, Nat.ofDigitChars_append, Nat.ofDigitChars_replicate_zero,
    Nat.mul_zero]

/-- The first digit of a positive number is not zero. -/
theorem head?_toDigits_ne_zero {n : Nat} (hpos : 0 < n) :
    (Nat.toDigits 10 n).head? ≠ some '0' := by
  induction n using Nat.strongRecOn with
  | ind n ih =>
    rw [Nat.toDigits_eq_if (by decide)]
    split
    · simpa using fun h : n = 0 => absurd h hpos.ne'
    · have hquot : 0 < n / 10 := by omega
      have hne : Nat.toDigits 10 (n / 10) ≠ [] := Nat.toDigits_ne_nil
      rw [List.head?_append_of_ne_nil _ hne]
      exact ih _ (by omega) hquot

/-- A fraction is read after its point. -/
theorem readFraction_point {digits rest : List Char} (hdigits : AllDigits digits)
    (hne : digits ≠ []) (hrest : ∀ c ∈ rest.head?, c.isDigit = false) :
    readFraction ('.' :: (digits ++ rest)) = some (some digits, rest) := by
  simp only [readFraction, span_allDigits hdigits hrest]

/-- Without a point there is no fraction. -/
theorem readFraction_none {rest : List Char} (hrest : ∀ c ∈ rest.head?, c ≠ '.') :
    readFraction rest = some (none, rest) := by
  unfold readFraction
  split
  · exact absurd rfl (hrest '.' rfl)
  · rfl

/-- The digits of an exponent are read with their sign. -/
theorem readExponentDigits_toDigits (negative : Bool) (n : Nat) {rest : List Char}
    (hrest : ∀ c ∈ rest.head?, c.isDigit = false) :
    readExponentDigits negative (Nat.toDigits 10 n ++ rest) =
      some (some (if negative then -(n : Int) else n), rest) := by
  have hne : Nat.toDigits 10 n ≠ [] := Nat.toDigits_ne_nil
  have hvalue := digitsValue_toDigits n
  simp only [readExponentDigits, span_allDigits (allDigits_toDigits n) hrest]
  generalize Nat.toDigits 10 n = digits at hne hvalue
  cases digits with
  | nil => exact absurd rfl hne
  | cons c digits => rw [hvalue]

/-- A written exponent is read. -/
theorem readExponent_written (exponent : Int) {rest : List Char}
    (hrest : ∀ c ∈ rest.head?, c.isDigit = false) :
    readExponent ('e' :: (if exponent < 0 then '-' else '+') ::
      (Nat.toDigits 10 exponent.natAbs ++ rest)) = some (some exponent, rest) := by
  by_cases hneg : exponent < 0
  · rw [if_pos hneg]
    refine (readExponentDigits_toDigits true _ hrest).trans ?_
    rw [if_pos rfl, show -(exponent.natAbs : Int) = exponent by omega]
  · rw [if_neg hneg]
    refine (readExponentDigits_toDigits false _ hrest).trans ?_
    rw [if_neg (by decide), show (exponent.natAbs : Int) = exponent by omega]

/-- Without its letter there is no exponent. -/
theorem readExponent_none {rest : List Char} (hrest : EndsNumber rest) :
    readExponent rest = some (none, rest) := by
  cases rest with
  | nil => rfl
  | cons c rest =>
    obtain ⟨-, -, he, hE⟩ := hrest c rfl
    simp [readExponent, he, hE]

/-- A literal is read part by part. -/
theorem readUnsigned_parts (negative : Bool) {whole tail afterFraction rest : List Char}
    {fraction : Option (List Char)} {exponent : Option Int} (hwhole : AllDigits whole)
    (hne : whole ≠ []) (hlead : whole.head? = some '0' → whole = ['0'])
    (htail : ∀ c ∈ tail.head?, c.isDigit = false)
    (hfraction : readFraction tail = some (fraction, afterFraction))
    (hexponent : readExponent afterFraction = some (exponent, rest)) :
    readUnsigned negative (whole ++ tail) =
      (numberValue negative whole fraction exponent).map fun value => (value, rest) := by
  rw [readUnsigned, span_allDigits hwhole htail]
  split
  · next heq => exact absurd (congrArg Prod.fst heq) hne
  · next heq =>
    obtain rfl := (congrArg Prod.fst heq)
    exact absurd (hlead rfl) (by simp)
  · next heq =>
    obtain ⟨rfl, rfl⟩ := Prod.mk.inj heq
    simp only [hfraction, hexponent, Option.bind_eq_bind, Option.bind_some]
    cases numberValue negative whole fraction exponent <;> rfl

/-- A sign is read before the literal it belongs to. -/
theorem readNumber_signed {negative : Bool} {cs : List Char} {result : Json × List Char}
    (hread : readUnsigned negative cs = some result) :
    readNumber ((if negative then ['-'] else []) ++ cs) = some result := by
  cases negative with
  | true => exact hread
  | false =>
    cases cs with
    | nil => exact hread
    | cons c cs =>
      by_cases hc : c = '-'
      · subst hc
        simp [readUnsigned, List.span_eq_takeWhile_dropWhile] at hread
      · have hsplit : readNumber (c :: cs) = readUnsigned false (c :: cs) := by
          rw [readNumber.eq_def]
          split
          · next heq => exact absurd (List.cons.inj heq).1 hc
          · rfl
        exact hsplit.trans hread

/-- An integer in range reads back. -/
theorem readNumber_intText {i : Int} (hmin : minInt ≤ i) (hmax : i ≤ maxInt) {rest : List Char}
    (hrest : EndsNumber rest) : readNumber (intText i ++ rest) = some (int i, rest) := by
  have htext : intText i = (if decide (i < 0) then ['-'] else []) ++ Nat.toDigits 10 i.natAbs := by
    simp only [intText, decide_eq_true_eq]
    split <;> rfl
  have hvalue : numberValue (decide (i < 0)) (Nat.toDigits 10 i.natAbs) none none =
      some (int i) := by
    have hself : (if i < 0 then -(i.natAbs : Int) else i.natAbs) = i := by split <;> omega
    simp only [numberValue, digitsValue_toDigits, decide_eq_true_eq, hself]
    rw [if_pos]
    simp only [Bool.and_eq_true, decide_eq_true_eq, Bool.not_eq_true', Bool.and_eq_false_iff,
      decide_eq_false_iff_not]
    exact ⟨⟨hmin, hmax⟩, by omega⟩
  rw [htext, List.append_assoc]
  apply readNumber_signed
  rw [readUnsigned_parts _ (allDigits_toDigits _) Nat.toDigits_ne_nil ?_
    (fun c hc => (hrest c hc).1) (readFraction_none fun c hc => (hrest c hc).2.1)
    (readExponent_none hrest), hvalue]
  · rfl
  · intro hzero
    by_cases hpos : 0 < i.natAbs
    · exact absurd hzero (head?_toDigits_ne_zero hpos)
    · rw [Nat.eq_zero_of_not_pos hpos]
      rfl

/-- A literal with a fraction or an exponent is the double nearest to what it spells. -/
theorem numberValue_of_decimalBits {negative : Bool} {whole : List Char}
    {fraction : Option (List Char)} {exponent : Option Int} {magnitude : Nat}
    (hform : fraction.isSome ∨ exponent.isSome) (hfinite : magnitude < Double.infinityBits)
    (hbits : Double.decimalBits (digitsValue (whole ++ fraction.getD []))
      (exponent.getD 0 - (fraction.getD []).length) = magnitude) :
    numberValue negative whole fraction exponent =
      some (float (Double.ofMagnitude negative magnitude)) := by
  unfold numberValue
  split
  · simp at hform
  · simp only [Double.ofDecimal?, hbits, if_pos hfinite, Option.map_some]

end GraphStore.Json

namespace GraphStore.Double

/-- What is written for a positive finite pattern reads back as it. -/
theorem decimalBits_shortest {magnitude : Nat} (hfinite : magnitude < infinityBits) :
    decimalBits (shortest magnitude).digits (shortest magnitude).exponent = magnitude := by
  unfold shortest
  cases hfound : (List.range 17).findSome? fun n => neighbour? magnitude (n + 1) with
  | none => exact decimalBits_expansion hfinite
  | some d =>
    obtain ⟨n, -, hn⟩ := List.exists_of_findSome?_eq_some hfound
    have hback : readsBack magnitude d = true := by
      simp only [neighbour?] at hn
      split at hn
      · next h =>
        cases hn
        exact (Bool.and_eq_true_iff.1 h).1
      · split at hn
        · next h =>
          cases hn
          exact h
        · cases hn
    exact of_decide_eq_true hback

/-- Significant digits are those of the number without the zeros at its end. -/
theorem significant_spec {d : Decimal} (hpos : 0 < d.digits) :
    ∃ zeros : Nat, Nat.toDigits 10 d.digits =
        (significant d).1 ++ List.replicate zeros '0' ∧
      (significant d).2 = (significant d).1.length + zeros + d.exponent ∧
      (significant d).1 ≠ [] ∧ (significant d).1.head? ≠ some '0' := by
  have hhead := Json.head?_toDigits_ne_zero hpos
  have hne : Nat.toDigits 10 d.digits ≠ [] := Nat.toDigits_ne_nil
  simp only [significant]
  generalize Nat.toDigits 10 d.digits = all at hhead hne
  have hzeros : all.reverse.takeWhile (· == '0') =
      List.replicate (all.reverse.takeWhile (· == '0')).length '0' := by
    apply List.eq_replicate_of_mem
    intro c hc
    simpa using List.mem_takeWhile_imp hc
  have hsplit : all = (all.reverse.dropWhile (· == '0')).reverse ++
      List.replicate (all.reverse.takeWhile (· == '0')).length '0' := by
    conv_lhs => rw [← List.reverse_reverse all,
      ← List.takeWhile_append_dropWhile (p := (· == '0')) (l := all.reverse)]
    rw [List.reverse_append]
    congr 1
    conv_lhs => rw [hzeros, List.reverse_replicate]
  generalize (all.reverse.takeWhile (· == '0')).length = zeros at hsplit
  generalize (all.reverse.dropWhile (· == '0')).reverse = digits at hsplit
  subst hsplit
  refine ⟨zeros, rfl, by simp, ?_, ?_⟩
  · intro hnil
    subst hnil
    cases zeros with
    | zero => exact hne rfl
    | succ n => exact hhead rfl
  · intro hzero
    cases digits with
    | nil => cases hzero
    | cons c digits => exact hhead hzero

end GraphStore.Double

namespace GraphStore.Json

open Double

/-- A literal with a fraction or an exponent that rounds to a finite double is read as it. -/
theorem readNumber_literal {d : Double} (whole tail : List Char) {afterFraction rest : List Char}
    {fraction : Option (List Char)} {exponent : Option Int}
    (hfinite : d.magnitude < infinityBits) (hwhole : AllDigits whole) (hne : whole ≠ [])
    (hlead : whole.head? = some '0' → whole = ['0'])
    (htail : ∀ c ∈ tail.head?, c.isDigit = false)
    (hfraction : readFraction tail = some (fraction, afterFraction))
    (hexponent : readExponent afterFraction = some (exponent, rest))
    (hform : fraction.isSome ∨ exponent.isSome)
    (hbits : decimalBits (digitsValue (whole ++ fraction.getD []))
      (exponent.getD 0 - (fraction.getD []).length) = d.magnitude) :
    readNumber ((if d.negative then ['-'] else []) ++ (whole ++ tail)) = some (float d, rest) := by
  apply readNumber_signed
  rw [readUnsigned_parts d.negative hwhole hne hlead htail hfraction hexponent,
    numberValue_of_decimalBits hform hfinite hbits, ofMagnitude_negative_magnitude]
  rfl

/-- Digits that spell a double when the decimal point stands at a place counted from the first of
them. -/
structure Spells (d : Double) (digits : List Char) (point : Int) : Prop where
  finite : d.magnitude < infinityBits
  allDigits : AllDigits digits
  ne_nil : digits ≠ []
  head?_ne_zero : digits.head? ≠ some '0'
  bits : decimalBits (digitsValue digits) (point - digits.length) = d.magnitude

/-- The significant digits of a finite double other than zero spell it. -/
theorem spells_significant {d : Double} (hfinite : d.magnitude < infinityBits)
    (hzero : d.magnitude ≠ 0) :
    Spells d (significant (shortest d.magnitude)).1 (significant (shortest d.magnitude)).2 := by
  have hback := decimalBits_shortest hfinite
  generalize shortest d.magnitude = decimal at hback
  have hpos : 0 < decimal.digits := by
    apply Nat.pos_of_ne_zero
    intro h
    rw [h, decimalBits, if_pos rfl] at hback
    exact hzero hback.symm
  obtain ⟨zeros, hall, hplace, hne, hhead⟩ := significant_spec hpos
  refine ⟨hfinite, fun c hc => ?_, hne, hhead, ?_⟩
  · refine allDigits_toDigits decimal.digits c ?_
    rw [hall]
    exact List.mem_append_left _ hc
  · rw [← hback, ← digitsValue_toDigits decimal.digits, hall, digitsValue_append_zeros,
      decimalBits_mul_pow]
    congr 1
    omega

namespace Spells

variable {d : Double} {digits rest : List Char} {point : Int}

/-- Digits at the front begin with no zero. -/
theorem head?_take_ne_zero (h : Spells d digits point) {count : Nat} (hcount : count ≠ 0)
    (tail : List Char) : (digits.take count ++ tail).head? ≠ some '0' := by
  have hhead := h.head?_ne_zero
  obtain ⟨n, rfl⟩ := Nat.exists_eq_succ_of_ne_zero hcount
  cases digits with
  | nil => exact absurd rfl h.ne_nil
  | cons c digits => exact hhead

/-- Digits at the front are some. -/
theorem take_ne_nil (h : Spells d digits point) {count : Nat} (hcount : count ≠ 0) :
    digits.take count ≠ [] := by
  simpa using ⟨hcount, h.ne_nil⟩

/-- The double without a digit behind the point. -/
theorem readNumber_whole (h : Spells d digits point) (hpoint : digits.length ≤ point)
    (hrest : EndsNumber rest) :
    readNumber ((if d.negative then ['-'] else []) ++
      ((digits ++ List.replicate (point - digits.length).toNat '0') ++ '.' :: (['0'] ++ rest))) =
        some (float d, rest) := by
  refine readNumber_literal _ _ h.finite ?_ (by simp [h.ne_nil]) ?_ (by simp)
    (readFraction_point (by simp [AllDigits]) (by simp) fun c hc => (hrest c hc).1)
    (readExponent_none hrest) (.inl rfl) ?_
  · intro c hc
    rcases List.mem_append.1 hc with hc | hc
    · exact h.allDigits c hc
    · rw [(List.mem_replicate.1 hc).2]
      rfl
  · intro hzero
    rw [List.head?_append_of_ne_nil _ h.ne_nil] at hzero
    exact absurd hzero h.head?_ne_zero
  · have hzeros : digits ++ List.replicate (point - digits.length).toNat '0' ++ ['0'] =
        digits ++ List.replicate ((point - digits.length).toNat + 1) '0' := by
      rw [List.append_assoc, ← List.replicate_one (a := '0'), List.replicate_append_replicate]
    rw [Option.getD_some, hzeros, digitsValue_append_zeros, decimalBits_mul_pow, ← h.bits]
    congr 1
    simp
    omega

/-- The double with the point between its digits. -/
theorem readNumber_split (h : Spells d digits point) (hpos : 0 < point)
    (hpoint : point < digits.length) (hrest : EndsNumber rest) :
    readNumber ((if d.negative then ['-'] else []) ++
      (digits.take point.toNat ++ '.' :: (digits.drop point.toNat ++ rest))) =
        some (float d, rest) := by
  have hcount : point.toNat ≠ 0 := by omega
  refine readNumber_literal _ _ h.finite (fun c hc => h.allDigits c (List.mem_of_mem_take hc))
    (h.take_ne_nil hcount) ?_ (by simp)
    (readFraction_point (fun c hc => h.allDigits c (List.mem_of_mem_drop hc)) ?_
      fun c hc => (hrest c hc).1) (readExponent_none hrest) (.inl rfl) ?_
  · intro hzero
    exact absurd (by rw [List.append_nil]; exact hzero) (h.head?_take_ne_zero hcount [])
  · intro hnil
    have hlength := congrArg List.length hnil
    rw [List.length_drop, List.length_nil] at hlength
    omega
  · rw [Option.getD_some, List.take_append_drop, ← h.bits]
    congr 1
    rw [List.length_drop]
    simp
    omega

/-- The double with the point before its digits. -/
theorem readNumber_fraction (h : Spells d digits point) (hpoint : point ≤ 0)
    (hrest : EndsNumber rest) :
    readNumber ((if d.negative then ['-'] else []) ++
      (['0'] ++ '.' :: ((List.replicate (-point).toNat '0' ++ digits) ++ rest))) =
        some (float d, rest) := by
  refine readNumber_literal _ _ h.finite (by simp [AllDigits]) (by simp) (fun _ => rfl) (by simp)
    (readFraction_point ?_ (by simp [h.ne_nil]) fun c hc => (hrest c hc).1)
    (readExponent_none hrest) (.inl rfl) ?_
  · intro c hc
    rcases List.mem_append.1 hc with hc | hc
    · rw [(List.mem_replicate.1 hc).2]
      rfl
    · exact h.allDigits c hc
  · rw [Option.getD_some, ← List.append_assoc, ← List.replicate_one (a := '0'),
      List.replicate_append_replicate, digitsValue_zeros_append, ← h.bits]
    congr 1
    simp
    omega

/-- The double with an exponent. -/
theorem readNumber_exponent (h : Spells d digits point) (hrest : EndsNumber rest) :
    readNumber ((if d.negative then ['-'] else []) ++ (digits.take 1 ++
      ((if digits.length ≤ 1 then [] else '.' :: digits.drop 1) ++
        'e' :: (if point - 1 < 0 then '-' else '+') ::
          (Nat.toDigits 10 (point - 1).natAbs ++ rest)))) = some (float d, rest) := by
  have hlead : (digits.take 1).head? = some '0' → digits.take 1 = ['0'] := by
    intro hzero
    exact absurd (by rw [List.append_nil]; exact hzero) (h.head?_take_ne_zero (by decide) [])
  have hexponent := readExponent_written (point - 1) fun c hc => (hrest c hc).1
  have htake : AllDigits (digits.take 1) := fun c hc => h.allDigits c (List.mem_of_mem_take hc)
  have hlength : 0 < digits.length := List.length_pos_of_ne_nil h.ne_nil
  by_cases hone : digits.length ≤ 1
  · rw [if_pos hone]
    refine readNumber_literal _ _ h.finite htake (h.take_ne_nil (by decide)) hlead (by simp)
      (readFraction_none (by simp)) hexponent (.inr rfl) ?_
    rw [Option.getD_none, List.append_nil, List.take_of_length_le hone, ← h.bits]
    congr 1
    simp
    omega
  · rw [if_neg hone]
    refine readNumber_literal _ _ h.finite htake (h.take_ne_nil (by decide)) hlead (by simp)
      (readFraction_point (fun c hc => h.allDigits c (List.mem_of_mem_drop hc)) ?_ (by simp))
      hexponent (.inr rfl) ?_
    · intro hnil
      have := congrArg List.length hnil
      rw [List.length_drop, List.length_nil] at this
      omega
    · rw [Option.getD_some, List.take_append_drop, ← h.bits]
      congr 1
      rw [List.length_drop]
      simp
      omega

end Spells

/-- The literal of a finite double is read as it. -/
theorem readNumber_text {d : Double} (hfinite : d.isFinite = true) {rest : List Char}
    (hrest : EndsNumber rest) : readNumber (d.text ++ rest) = some (float d, rest) := by
  have hfinite : d.magnitude < infinityBits := of_decide_eq_true hfinite
  unfold Double.text
  dsimp only
  by_cases hzero : d.isZero = true
  · rw [if_pos hzero, List.append_assoc]
    refine readNumber_literal ['0'] ('.' :: (['0'] ++ rest)) hfinite (by simp [AllDigits]) (by simp)
      (fun _ => rfl) (by simp) (readFraction_point (by simp [AllDigits]) (by simp)
        fun c hc => (hrest c hc).1) (readExponent_none hrest) (.inl rfl) ?_
    rw [show digitsValue (['0'] ++ (some ['0']).getD []) = 0 from rfl, decimalBits, if_pos rfl]
    exact (of_decide_eq_true hzero).symm
  · have hspells := spells_significant hfinite fun h => hzero (decide_eq_true h)
    rw [if_neg hzero]
    generalize significant (shortest d.magnitude) = found at hspells
    obtain ⟨digits, point⟩ := found
    dsimp only at hspells ⊢
    split
    · next hplain =>
      split
      · next hwhole => simpa using hspells.readNumber_whole hwhole hrest
      · next hsplit => simpa using hspells.readNumber_split hplain.1 (by omega) hrest
    · split
      · next hfraction => simpa using hspells.readNumber_fraction hfraction.2 hrest
      · simpa using hspells.readNumber_exponent hrest

end GraphStore.Json
