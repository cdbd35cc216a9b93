import GraphStore.Encoding.Utf8
import Mathlib.Data.List.Basic

/-!
# UTF-8 text reads back

Every character is written in one to four bytes, and those bytes are read as one piece. A text is
therefore found again in its bytes, strictly and with replacement, so different texts have
different bytes. In turn a piece that is a character consists of the bytes of that character, so
what is read strictly has the bytes it was read from.
-/

namespace GraphStore.Utf8

/-- A byte below 256 keeps its number. -/
theorem toNat_ofNat_of_lt {n : Nat} (hn : n < 256) : (UInt8.ofNat n).toNat = n := by
  simpa using Nat.mod_eq_of_lt hn

/-- A continuation byte in its range is taken. -/
theorem continuation_cons (count low high acc n : Nat) (rest : Bytes) (hn : n < 256)
    (hlow : low ≤ n) (hhigh : n ≤ high) :
    continuation (count + 1) low high acc (UInt8.ofNat n :: rest) =
      continuation count 0x80 0xBF (acc * 64 + n % 64) rest := by
  rw [continuation, toNat_ofNat_of_lt hn, if_pos ⟨hlow, hhigh⟩]

/-- The code point of a character is a scalar value. -/
theorem char_bounds (c : Char) :
    c.val.toNat < 0x110000 ∧ ¬(0xD800 ≤ c.val.toNat ∧ c.val.toNat ≤ 0xDFFF) := by
  have hvalid := c.valid
  simp only [UInt32.isValidChar, Nat.isValidChar] at hvalid
  omega

/-- A character is determined by its code point. -/
theorem char_of_toNat (c : Char) {n : Nat} (hn : n = c.val.toNat) : Char.ofNat n = c := by
  subst hn
  exact Char.ofNat_toNat c

/-- The bytes of a character are read as one piece. -/
theorem piece_encodeChar (c : Char) :
    ∃ first tail, String.utf8EncodeChar c = first :: tail ∧
      ∀ rest, piece first (tail ++ rest) = .char c rest := by
  obtain ⟨hmax, hscalar⟩ := char_bounds c
  generalize hv : c.val.toNat = v at hmax hscalar
  simp only [String.utf8EncodeChar, hv]
  by_cases h1 : v ≤ 0x7f
  · rw [if_pos h1]
    refine ⟨_, _, rfl, fun rest => ?_⟩
    simp only [piece, toNat_ofNat_of_lt (show v < 256 by omega), List.nil_append]
    rw [if_pos (by omega), char_of_toNat c hv.symm]
  · rw [if_neg h1]
    by_cases h2 : v ≤ 0x7ff
    · rw [if_pos h2]
      refine ⟨_, _, rfl, fun rest => ?_⟩
      simp only [piece, toNat_ofNat_of_lt (show v / 64 % 32 + 192 < 256 by omega),
        List.cons_append, List.nil_append]
      rw [if_neg (by omega), if_pos (by omega),
        continuation_cons _ _ _ _ _ _ (by omega) (by omega) (by omega), continuation,
        char_of_toNat c (by omega)]
    · rw [if_neg h2]
      by_cases h3 : v ≤ 0xffff
      · rw [if_pos h3]
        refine ⟨_, _, rfl, fun rest => ?_⟩
        simp only [piece, toNat_ofNat_of_lt (show v / 4096 % 16 + 224 < 256 by omega),
          List.cons_append, List.nil_append]
        rw [if_neg (by omega), if_neg (by omega)]
        by_cases hzero : v / 4096 % 16 + 224 = 0xE0
        · rw [if_pos hzero, continuation_cons _ _ _ _ _ _ (by omega) (by omega) (by omega),
            continuation_cons _ _ _ _ _ _ (by omega) (by omega) (by omega), continuation,
            char_of_toNat c (by omega)]
        · rw [if_neg hzero, if_pos (by omega)]
          rw [continuation_cons _ _ _ _ _ _ (by omega) (by omega) (by split <;> omega),
            continuation_cons _ _ _ _ _ _ (by omega) (by omega) (by omega), continuation,
            char_of_toNat c (by omega)]
      · rw [if_neg h3]
        refine ⟨_, _, rfl, fun rest => ?_⟩
        simp only [piece, toNat_ofNat_of_lt (show v / 262144 % 8 + 240 < 256 by omega),
          List.cons_append, List.nil_append]
        rw [if_neg (by omega), if_neg (by omega), if_neg (by omega), if_neg (by omega)]
        by_cases hzero : v / 262144 % 8 + 240 = 0xF0
        · rw [if_pos hzero, continuation_cons _ _ _ _ _ _ (by omega) (by omega) (by omega),
            continuation_cons _ _ _ _ _ _ (by omega) (by omega) (by omega),
            continuation_cons _ _ _ _ _ _ (by omega) (by omega) (by omega), continuation,
            char_of_toNat c (by omega)]
        · rw [if_neg hzero, if_pos (by omega)]
          rw [continuation_cons _ _ _ _ _ _ (by omega) (by omega) (by split <;> omega),
            continuation_cons _ _ _ _ _ _ (by omega) (by omega) (by omega),
            continuation_cons _ _ _ _ _ _ (by omega) (by omega) (by omega), continuation,
            char_of_toNat c (by omega)]

/-- The bytes of a text begin with the piece of its first character. -/
theorem encode_cons (c : Char) (text : List Char) :
    ∃ first tail, encode (c :: text) = first :: (tail ++ encode text) ∧
      piece first (tail ++ encode text) = .char c (encode text) := by
  obtain ⟨first, tail, hbytes, hpiece⟩ := piece_encodeChar c
  refine ⟨first, tail, ?_, hpiece _⟩
  rw [encode, List.flatMap_cons, hbytes]
  rfl

/-- The pieces of a text are its characters, given a step for each of them. -/
theorem pieces_encode (text : List Char) {fuel : Nat} (hfuel : text.length ≤ fuel) :
    pieces fuel (encode text) = text.map some := by
  induction text generalizing fuel with
  | nil => cases fuel <;> rfl
  | cons c text ih =>
    obtain ⟨fuel, rfl⟩ : ∃ n, fuel = n + 1 := ⟨fuel - 1, by simp at hfuel; omega⟩
    obtain ⟨first, tail, hcons, hpiece⟩ := encode_cons c text
    rw [hcons, pieces, hpiece]
    simp only [List.map_cons, List.cons.injEq, true_and]
    exact ih (by simpa using hfuel)

/-- A text takes at least one byte for each character. -/
theorem length_le_length_encode (text : List Char) : text.length ≤ (encode text).length := by
  induction text with
  | nil => simp
  | cons c text ih =>
    obtain ⟨first, tail, hcons, -⟩ := encode_cons c text
    rw [hcons]
    simp only [List.length_cons, List.length_append]
    omega

/-- Strict reading finds a text in its bytes. -/
@[simp] theorem decode?_encode (text : List Char) : decode? (encode text) = some text := by
  rw [decode?, pieces_encode text (length_le_length_encode text)]
  induction text with
  | nil => rfl
  | cons c text ih => simp [List.mapM_cons, ih]

/-- Replacing reading finds a string in its bytes. -/
@[simp] theorem decodeLossy_ofString (s : String) : decodeLossy (ofString s) = s := by
  rw [decodeLossy, ofString, pieces_encode _ (length_le_length_encode _), List.map_map]
  simp [Function.comp_def]

variable {bytes rest : Bytes} {c : Char} {first : UInt8}

/-- The code point of a character made from a scalar value. -/
theorem val_ofNat {n : Nat} (h : n.isValidChar) : (Char.ofNat n).val.toNat = n := by
  rw [Char.ofNat, dif_pos h]
  rfl

/-- A byte is determined by its number. -/
theorem ofNat_of_toNat (byte : UInt8) {n : Nat} (h : n = byte.toNat) : UInt8.ofNat n = byte := by
  rw [h]
  exact UInt8.ofNat_toNat

/-- A character is read from one more continuation byte when the byte is in its range. -/
theorem continuation_succ {count low high acc : Nat}
    (h : continuation (count + 1) low high acc bytes = .char c rest) :
    ∃ byte tail, bytes = byte :: tail ∧ low ≤ byte.toNat ∧ byte.toNat ≤ high ∧
      continuation count 0x80 0xBF (acc * 64 + byte.toNat % 64) tail = .char c rest := by
  cases bytes with
  | nil => cases h
  | cons byte tail =>
    rw [continuation] at h
    split at h
    · next hrange => exact ⟨byte, tail, rfl, hrange.1, hrange.2, h⟩
    · cases h

/-- A character of two bytes consists of what is read. -/
theorem encodeChar_of_continuation_one {acc : Nat} (hfirst : first.toNat = acc + 0xC0)
    (hacc : 2 ≤ acc ∧ acc < 32) (h : continuation 1 0x80 0xBF acc bytes = .char c rest) :
    String.utf8EncodeChar c ++ rest = first :: bytes := by
  obtain ⟨second, tail, rfl, hlow, hhigh, h⟩ := continuation_succ h
  cases h
  generalize hn : acc * 64 + second.toNat % 64 = n
  have hvalid : n.isValidChar := by
    rw [Nat.isValidChar]
    omega
  simp only [String.utf8EncodeChar, val_ofNat hvalid]
  rw [if_neg (by omega), if_pos (by omega), ofNat_of_toNat first (by omega),
    ofNat_of_toNat second (by omega)]
  rfl

/-- A character of three bytes consists of what is read. -/
theorem encodeChar_of_continuation_two {low high acc : Nat} (hfirst : first.toNat = acc + 0xE0)
    (hacc : acc < 16) (hlow : 0x80 ≤ low) (hhigh : high ≤ 0xBF) (hshort : acc = 0 → 0xA0 ≤ low)
    (hsurrogate : acc = 13 → high ≤ 0x9F)
    (h : continuation 2 low high acc bytes = .char c rest) :
    String.utf8EncodeChar c ++ rest = first :: bytes := by
  obtain ⟨second, tail, rfl, hlow2, hhigh2, h⟩ := continuation_succ h
  obtain ⟨third, tail, rfl, hlow3, hhigh3, h⟩ := continuation_succ h
  cases h
  generalize hn : (acc * 64 + second.toNat % 64) * 64 + third.toNat % 64 = n
  have hvalid : n.isValidChar := by
    rw [Nat.isValidChar]
    omega
  simp only [String.utf8EncodeChar, val_ofNat hvalid]
  rw [if_neg (by omega), if_neg (by omega), if_pos (by omega),
    ofNat_of_toNat first (by omega), ofNat_of_toNat second (by omega),
    ofNat_of_toNat third (by omega)]
  rfl

/-- A character of four bytes consists of what is read. -/
theorem encodeChar_of_continuation_three {low high acc : Nat} (hfirst : first.toNat = acc + 0xF0)
    (hacc : acc < 5) (hlow : 0x80 ≤ low) (hhigh : high ≤ 0xBF) (hshort : acc = 0 → 0x90 ≤ low)
    (hlarge : acc = 4 → high ≤ 0x8F)
    (h : continuation 3 low high acc bytes = .char c rest) :
    String.utf8EncodeChar c ++ rest = first :: bytes := by
  obtain ⟨second, tail, rfl, hlow2, hhigh2, h⟩ := continuation_succ h
  obtain ⟨third, tail, rfl, hlow3, hhigh3, h⟩ := continuation_succ h
  obtain ⟨fourth, tail, rfl, hlow4, hhigh4, h⟩ := continuation_succ h
  cases h
  generalize hn : ((acc * 64 + second.toNat % 64) * 64 + third.toNat % 64) * 64 +
    fourth.toNat % 64 = n
  have hvalid : n.isValidChar := by
    rw [Nat.isValidChar]
    omega
  simp only [String.utf8EncodeChar, val_ofNat hvalid]
  rw [if_neg (by omega), if_neg (by omega), if_neg (by omega),
    ofNat_of_toNat first (by omega), ofNat_of_toNat second (by omega),
    ofNat_of_toNat third (by omega), ofNat_of_toNat fourth (by omega)]
  rfl

/-- A piece that is a character consists of the bytes of that character. -/
theorem encodeChar_of_piece (h : piece first bytes = .char c rest) :
    String.utf8EncodeChar c ++ rest = first :: bytes := by
  have hlt := first.toNat_lt
  unfold piece at h
  dsimp only at h
  split at h
  · next hascii =>
    cases h
    have hvalid : first.toNat.isValidChar := by
      rw [Nat.isValidChar]
      omega
    simp only [String.utf8EncodeChar, val_ofNat hvalid]
    rw [if_pos (by omega), UInt8.ofNat_toNat]
    rfl
  · split at h
    · exact encodeChar_of_continuation_one (by omega) (by omega) h
    · split at h
      · exact encodeChar_of_continuation_two (by omega) (by omega) (by omega) (by omega) (by omega)
          (by omega) h
      · split at h
        · exact encodeChar_of_continuation_two (by omega) (by omega) (by omega)
            (by split <;> omega) (by omega) (by intro; split <;> omega) h
        · split at h
          · exact encodeChar_of_continuation_three (by omega) (by omega) (by omega) (by omega)
              (by omega) (by omega) h
          · split at h
            · exact encodeChar_of_continuation_three (by omega) (by omega) (by omega)
                (by split <;> omega) (by omega) (by intro; split <;> omega) h
            · cases h

/-- Pieces that are all characters consist of the bytes of the text. -/
theorem encode_of_pieces {fuel : Nat} (hfuel : bytes.length ≤ fuel) {text : List Char}
    (h : (pieces fuel bytes).mapM id = some text) : encode text = bytes := by
  induction fuel generalizing bytes text with
  | zero =>
    rw [List.length_eq_zero_iff.1 (Nat.le_zero.1 hfuel)]
    cases h
    rfl
  | succ fuel ih =>
    cases bytes with
    | nil =>
      cases h
      rfl
    | cons first bytes =>
      rw [pieces] at h
      split at h
      · next c rest hpiece =>
        have hbytes := encodeChar_of_piece hpiece
        have hshorter : rest.length ≤ fuel := by
          obtain ⟨_, tail, hchar, -⟩ := piece_encodeChar c
          have hlength := congrArg List.length hbytes
          rw [hchar] at hlength
          simp only [List.length_append, List.length_cons] at hlength hfuel
          omega
        rw [List.mapM_cons] at h
        obtain ⟨_, hc, h⟩ := Option.bind_eq_some_iff.1 h
        obtain ⟨text, htext, h⟩ := Option.bind_eq_some_iff.1 h
        cases hc
        cases h
        rw [← hbytes, ← ih hshorter htext, encode, List.flatMap_cons]
        rfl
      · simp [List.mapM_cons] at h

/-- What is read strictly is the text that the bytes are of. -/
theorem encode_of_decode? {text : List Char} (h : decode? bytes = some text) :
    encode text = bytes :=
  encode_of_pieces (Nat.le_refl _) h

end GraphStore.Utf8
