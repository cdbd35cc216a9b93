import GraphStore.Proofs.Encoding.BigEndian
import GraphStore.Proofs.Encoding.Order
import GraphStore.Proofs.Encoding.Utf8
import GraphStore.Proofs.Key.Prefix
import GraphStore.Proofs.Outcome

/-!
# Keys of vertex and edge rows

A row's key determines the padded ids and the numbers it is made of, and its first byte tells which
kind of row it belongs to. Ids that do not end in the padding are found again in their padded form,
so that among them different vertices and edges have different keys.
-/

namespace GraphStore

namespace Bytes

/-- Padding is cut off again from a string that does not end in it. -/
theorem trimPadding_padTo {bytes : Bytes} (h : bytes.getLast? ≠ some 0) (width : Nat) :
    trimPadding (padTo width bytes) = bytes := by
  have hzeros (count : Nat) : (List.replicate count (0 : UInt8) ++ bytes.reverse).dropWhile (· == 0) =
      bytes.reverse := by
    rw [List.dropWhile_append_of_pos]
    · cases hbytes : bytes.reverse with
      | nil => rfl
      | cons last front =>
        have hlast : last ≠ 0 := by
          rintro rfl
          rw [List.getLast?_eq_head?_reverse, hbytes] at h
          exact h rfl
        simp [hlast]
    · intro byte hbyte
      simp [(List.mem_replicate.1 hbyte).2]
  rw [trimPadding, padTo, List.reverse_append, List.reverse_replicate, hzeros,
    List.reverse_reverse]

end Bytes

/-- A vertex id that does not end in the character that ids are padded with. -/
def Canonical (vid : VertexId) : Prop := vid.toList.getLast? ≠ some '\x00'

instance (vid : VertexId) : Decidable (Canonical vid) := inferInstanceAs (Decidable (_ ≠ _))

/-- Only the character zero ends in a byte zero. -/
theorem Utf8.getLast?_utf8EncodeChar {c : Char}
    (h : (String.utf8EncodeChar c).getLast? = some 0) : c = '\x00' := by
  obtain ⟨hmax, -⟩ := char_bounds c
  generalize hv : c.val.toNat = v at hmax
  have hbyte (n : Nat) (hn : n < 256) (h : UInt8.ofNat n = 0) : n = 0 := by
    have := congrArg UInt8.toNat h
    rwa [toNat_ofNat_of_lt hn] at this
  have hzero : v = 0 := by
    simp only [String.utf8EncodeChar, hv] at h
    split at h
    · exact hbyte v (by omega) (Option.some.inj h)
    · split at h
      · have := hbyte _ (by omega) (Option.some.inj h)
        omega
      · split at h
        · have := hbyte _ (by omega) (Option.some.inj h)
          omega
        · have := hbyte _ (by omega) (Option.some.inj h)
          omega
  rw [← char_of_toNat c (hv.trans hzero).symm]

/-- The bytes of a canonical id do not end in padding. -/
theorem Canonical.getLast?_ofString {vid : VertexId} (h : Canonical vid) :
    (Utf8.ofString vid).getLast? ≠ some 0 := by
  intro hlast
  unfold Canonical at h
  rw [Utf8.ofString] at hlast
  rcases List.eq_nil_or_concat vid.toList with hnil | ⟨front, c, hconcat⟩
  · rw [hnil] at hlast
    cases hlast
  · rw [hconcat, List.concat_eq_append] at h hlast
    have hbytes : String.utf8EncodeChar c ≠ [] := by
      obtain ⟨first, tail, hcons, -⟩ := Utf8.piece_encodeChar c
      simp [hcons]
    rw [Utf8.encode, List.flatMap_append, List.flatMap_singleton,
      List.getLast?_append_of_ne_nil _ hbytes] at hlast
    rw [List.getLast?_concat] at h
    exact h (congrArg some (Utf8.getLast?_utf8EncodeChar hlast))

namespace Key

variable {vidLen : Nat} {part : PartId} {vid other : VertexId} {tag otherTag : TagId}
  {key stem padded : Bytes}

/-- A padded id fills the field. -/
theorem padVid_eq_ok : padVid vidLen vid = .ok padded ↔
    (Utf8.ofString vid).length ≤ vidLen ∧ (Utf8.ofString vid).padTo vidLen = padded := by
  unfold padVid
  dsimp only
  split
  · constructor
    · nofun
    · intro h
      omega
  · constructor
    · intro h
      exact ⟨by omega, Except.ok.inj h⟩
    · rintro ⟨-, rfl⟩
      rfl

/-- A padded id has the width of the space. -/
theorem length_of_padVid (h : padVid vidLen vid = .ok padded) : padded.length = vidLen := by
  obtain ⟨hlength, rfl⟩ := padVid_eq_ok.1 h
  exact Bytes.length_padTo hlength

/-- A canonical id is found again in its padded form. -/
theorem unpadVid_of_padVid (hvid : Canonical vid) (h : padVid vidLen vid = .ok padded) :
    unpadVid padded = vid := by
  obtain ⟨-, rfl⟩ := padVid_eq_ok.1 h
  rw [unpadVid, Bytes.trimPadding_padTo hvid.getLast?_ofString, Utf8.decodeLossy_ofString]

/-- Canonical ids have different padded forms. -/
theorem padVid_inj (hvid : Canonical vid) (hother : Canonical other)
    (h : padVid vidLen vid = .ok padded) (h' : padVid vidLen other = .ok padded) :
    vid = other := by
  rw [← unpadVid_of_padVid hvid h, unpadVid_of_padVid hother h']

/-- A 32-bit integer takes four bytes. -/
@[simp] theorem length_ordered32 (i : Int32) : (ordered32 i).length = 4 :=
  Bytes.length_bigEndian ..

/-- A 64-bit integer takes eight bytes. -/
@[simp] theorem length_ordered64 (i : Int64) : (ordered64 i).length = 8 :=
  Bytes.length_bigEndian ..

/-- A 32-bit integer is found again in its bytes. -/
@[simp] theorem readOrdered32_ordered32 (i : Int32) : readOrdered32 (ordered32 i) = i := by
  have hmin := i.le_toInt
  have hmax := i.toInt_lt
  have hshifted : ((Bytes.bigEndian 4 (i.toInt + 0x80000000).toNat).toNat : Int) - 0x80000000 =
      i.toInt := by
    rw [Bytes.toNat_bigEndian]
    omega
  rw [readOrdered32, ordered32, hshifted, Int32.ofInt_toInt]

/-- A 64-bit integer is found again in its bytes. -/
@[simp] theorem readOrdered64_ordered64 (i : Int64) : readOrdered64 (ordered64 i) = i := by
  have hmin := i.le_toInt
  have hmax := i.toInt_lt
  have hshifted : ((Bytes.bigEndian 8 (i.toInt + 0x8000000000000000).toNat).toNat : Int) -
      0x8000000000000000 = i.toInt := by
    rw [Bytes.toNat_bigEndian]
    omega
  rw [readOrdered64, ordered64, hshifted, Int64.ofInt_toInt]

/-- Four bytes are found again in the integer they stand for. -/
theorem ordered32_readOrdered32 {bytes : Bytes} (h : bytes.length = 4) :
    ordered32 (readOrdered32 bytes) = bytes := by
  have hlt : bytes.toNat < 256 ^ 4 := h ▸ Bytes.toNat_lt bytes
  have hvalue : (readOrdered32 bytes).toInt = bytes.toNat - 0x80000000 :=
    Int32.toInt_ofInt_of_le (by omega) (by omega)
  refine Bytes.toNat_inj ((length_ordered32 _).trans h.symm) ?_
  rw [ordered32, hvalue, Bytes.toNat_bigEndian]
  omega

/-- Eight bytes are found again in the integer they stand for. -/
theorem ordered64_readOrdered64 {bytes : Bytes} (h : bytes.length = 8) :
    ordered64 (readOrdered64 bytes) = bytes := by
  have hlt : bytes.toNat < 256 ^ 8 := h ▸ Bytes.toNat_lt bytes
  have hvalue : (readOrdered64 bytes).toInt = bytes.toNat - 0x8000000000000000 :=
    Int64.toInt_ofInt_of_le (by omega) (by omega)
  refine Bytes.toNat_inj ((length_ordered64 _).trans h.symm) ?_
  rw [ordered64, hvalue, Bytes.toNat_bigEndian]
  omega

/-- Different 32-bit integers have different bytes. -/
theorem ordered32_injective : Function.Injective ordered32 := fun i j h => by
  rw [← readOrdered32_ordered32 i, h, readOrdered32_ordered32]

/-- Different 64-bit integers have different bytes. -/
theorem ordered64_injective : Function.Injective ordered64 := fun i j h => by
  rw [← readOrdered64_ordered64 i, h, readOrdered64_ordered64]

/-- The kind and the partition take four bytes. -/
@[simp] theorem length_header (kind : UInt8) (part : PartId) :
    (header kind part).length = headerLength := by
  simp [header, headerLength]

/-- The stem of a vertex is its padded id behind the header. -/
theorem vertexStem_eq_ok : vertexStem vidLen part vid = .ok stem ↔
    ∃ padded, padVid vidLen vid = .ok padded ∧ header vertexKind part ++ padded = stem := by
  rw [vertexStem, bind_eq_ok]
  constructor
  · rintro ⟨padded, hpad, h⟩
    exact ⟨padded, hpad, Except.ok.inj h⟩
  · rintro ⟨padded, hpad, rfl⟩
    exact ⟨padded, hpad, rfl⟩

/-- A vertex has a stem when its id fits into the field. -/
theorem exists_vertexStem : (∃ stem, vertexStem vidLen part vid = .ok stem) ↔
    (Utf8.ofString vid).length ≤ vidLen := by
  constructor
  · rintro ⟨stem, hstem⟩
    obtain ⟨padded, hpadded, -⟩ := vertexStem_eq_ok.1 hstem
    exact (padVid_eq_ok.1 hpadded).1
  · exact fun hfits => ⟨_, vertexStem_eq_ok.2 ⟨_, padVid_eq_ok.2 ⟨hfits, rfl⟩, rfl⟩⟩

/-- A vertex whose id does not fit has no stem. -/
theorem vertexStem_of_lt (h : vidLen < (Utf8.ofString vid).length) :
    vertexStem vidLen part vid = .error .invalidVid := by
  rw [vertexStem, padVid, if_pos h]
  rfl

/-- The key of a tag row is the tag behind the stem of its vertex. -/
theorem vertex_eq_ok : vertex vidLen part vid tag = .ok key ↔
    ∃ padded, padVid vidLen vid = .ok padded ∧
      header vertexKind part ++ padded ++ ordered32 tag = key := by
  rw [vertex, bind_eq_ok]
  constructor
  · rintro ⟨stem, hstem, h⟩
    obtain ⟨padded, hpad, rfl⟩ := vertexStem_eq_ok.1 hstem
    exact ⟨padded, hpad, Except.ok.inj h⟩
  · rintro ⟨padded, hpad, rfl⟩
    exact ⟨_, vertexStem_eq_ok.2 ⟨padded, hpad, rfl⟩, rfl⟩

/-- The key of an edge row is made of the padded ids, the edge type and the ranking. -/
theorem edge_eq_ok {e : EdgeKey} : edge vidLen part e = .ok key ↔
    ∃ src dst, padVid vidLen e.src = .ok src ∧ padVid vidLen e.dst = .ok dst ∧
      header edgeKind part ++ src ++ ordered32 e.edgeType ++ ordered64 e.ranking ++ dst = key := by
  rw [edge, bind_eq_ok]
  constructor
  · rintro ⟨src, hsrc, h⟩
    obtain ⟨dst, hdst, h⟩ := bind_eq_ok.1 h
    exact ⟨src, dst, hsrc, hdst, Except.ok.inj h⟩
  · rintro ⟨src, dst, hsrc, hdst, rfl⟩
    exact ⟨src, hsrc, bind_eq_ok.2 ⟨dst, hdst, rfl⟩⟩

/-- An edge has a key when both its ids fit into their fields. -/
theorem exists_edgeKey {e : EdgeKey} : (∃ key, edge vidLen part e = .ok key) ↔
    (Utf8.ofString e.src).length ≤ vidLen ∧ (Utf8.ofString e.dst).length ≤ vidLen := by
  constructor
  · rintro ⟨key, hkey⟩
    obtain ⟨src, dst, hsrc, hdst, -⟩ := edge_eq_ok.1 hkey
    exact ⟨(padVid_eq_ok.1 hsrc).1, (padVid_eq_ok.1 hdst).1⟩
  · rintro ⟨hsrc, hdst⟩
    exact ⟨_, edge_eq_ok.2 ⟨_, _, padVid_eq_ok.2 ⟨hsrc, rfl⟩, padVid_eq_ok.2 ⟨hdst, rfl⟩, rfl⟩⟩

/-- The key of a tag row begins with its kind. -/
theorem head?_of_vertex (h : vertex vidLen part vid tag = .ok key) :
    key.head? = some vertexKind := by
  obtain ⟨padded, -, rfl⟩ := vertex_eq_ok.1 h
  rfl

/-- The key of an edge row begins with its kind. -/
theorem head?_of_edge {e : EdgeKey} (h : edge vidLen part e = .ok key) :
    key.head? = some edgeKind := by
  obtain ⟨src, dst, -, -, rfl⟩ := edge_eq_ok.1 h
  rfl

/-- Equal keys belong to the same padded id and the same tag. -/
theorem vertex_inj (h : vertex vidLen part vid tag = .ok key)
    (h' : vertex vidLen part other otherTag = .ok key) :
    padVid vidLen vid = padVid vidLen other ∧ tag = otherTag := by
  obtain ⟨padded, hpad, rfl⟩ := vertex_eq_ok.1 h
  obtain ⟨padded', hpad', heq⟩ := vertex_eq_ok.1 h'
  obtain ⟨hstem, htag⟩ := List.append_inj' heq (by simp)
  rw [hpad, hpad', List.append_cancel_left hstem]
  exact ⟨rfl, (ordered32_injective htag).symm⟩

/-- Keys of edges of equal bytes belong to the same padded ends, edge type and ranking. -/
theorem edge_inj {e f : EdgeKey} (h : edge vidLen part e = .ok key)
    (h' : edge vidLen part f = .ok key) :
    padVid vidLen e.src = padVid vidLen f.src ∧ padVid vidLen e.dst = padVid vidLen f.dst ∧
      e.edgeType = f.edgeType ∧ e.ranking = f.ranking := by
  obtain ⟨src, dst, hsrc, hdst, rfl⟩ := edge_eq_ok.1 h
  obtain ⟨src', dst', hsrc', hdst', heq⟩ := edge_eq_ok.1 h'
  have hwidth := length_of_padVid hdst
  have hwidth' := length_of_padVid hdst'
  obtain ⟨heq, hdsts⟩ := List.append_inj' heq (by rw [hwidth, hwidth'])
  obtain ⟨heq, hrankings⟩ := List.append_inj' heq (by simp)
  obtain ⟨heq, htypes⟩ := List.append_inj' heq (by simp)
  rw [hsrc, hsrc', hdst, hdst', List.append_cancel_left heq, hdsts]
  exact ⟨rfl, rfl, (ordered32_injective htypes).symm, (ordered64_injective hrankings).symm⟩

/-- Vertices with the same padded id have the same keys. -/
theorem vertex_congr (h : padVid vidLen vid = padVid vidLen other) (part : PartId) (tag : TagId) :
    vertex vidLen part vid tag = vertex vidLen part other tag := by
  simp only [vertex, vertexStem, h]

/-- A row whose key begins with the stem of a vertex belongs to its padded id. -/
theorem padVid_of_prefix (hstem : vertexStem vidLen part vid = .ok stem)
    (hkey : vertex vidLen part other tag = .ok key) (hstart : stem <+: key) :
    padVid vidLen vid = padVid vidLen other := by
  obtain ⟨padded, hpad, rfl⟩ := vertexStem_eq_ok.1 hstem
  obtain ⟨padded', hpad', rfl⟩ := vertex_eq_ok.1 hkey
  have hwidth := length_of_padVid hpad
  have hwidth' := length_of_padVid hpad'
  rw [List.append_assoc] at hstart
  have hrest := (List.prefix_append_right_inj _).1 hstart
  have hsame := List.prefix_of_prefix_length_le hrest (List.prefix_append ..) (by omega)
  rw [hpad, hpad', hsame.eq_of_length (by omega)]

/-- The key of a tag row begins with the stem of its vertex. -/
theorem stem_prefix (hstem : vertexStem vidLen part vid = .ok stem)
    (hkey : vertex vidLen part vid tag = .ok key) : stem <+: key := by
  rw [vertex, hstem] at hkey
  cases hkey
  exact List.prefix_append ..

/-- A key that begins with the stem of a vertex is that of a vertex row. -/
theorem head?_of_stem_prefix (hstem : vertexStem vidLen part vid = .ok stem)
    (hstart : stem <+: key) : key.head? = some vertexKind := by
  obtain ⟨padded, -, rfl⟩ := vertexStem_eq_ok.1 hstem
  obtain ⟨rest, rfl⟩ := hstart
  rfl

/-- The keys at or above the stem of a vertex and below its upper bound begin with it. -/
theorem within_vertexStem_iff (hstem : vertexStem vidLen part vid = .ok stem) (key : Bytes) :
    Partition.within stem (upperBound stem) key = true ↔ stem <+: key := by
  apply within_upperBound_iff
  obtain ⟨padded, -, rfl⟩ := vertexStem_eq_ok.1 hstem
  exact ⟨vertexKind, by simp [header], by decide⟩

/-- The tag of a row is found in its key. -/
theorem tagOfVertex?_of_vertex (h : vertex vidLen part vid tag = .ok key) :
    tagOfVertex? vidLen key = some tag := by
  obtain ⟨padded, hpad, rfl⟩ := vertex_eq_ok.1 h
  have hwidth := length_of_padVid hpad
  have hlength : (header vertexKind part ++ padded).length = headerLength + vidLen := by
    rw [List.length_append, length_header, hwidth]
  rw [tagOfVertex?, if_pos ⟨by simp [hwidth, Nat.add_assoc], rfl⟩, ← hlength, List.drop_left,
    readOrdered32_ordered32]

/-- A key under the stem of a vertex with a tag in it is that of the tag row. -/
theorem vertex_of_tagOfVertex? (hstem : vertexStem vidLen part vid = .ok stem) (hstart : stem <+: key)
    (htag : tagOfVertex? vidLen key = some tag) : vertex vidLen part vid tag = .ok key := by
  obtain ⟨padded, hpad, rfl⟩ := vertexStem_eq_ok.1 hstem
  obtain ⟨rest, rfl⟩ := hstart
  have hlength : (header vertexKind part ++ padded).length = headerLength + vidLen := by
    rw [List.length_append, length_header, length_of_padVid hpad]
  unfold tagOfVertex? at htag
  split at htag
  · next hshape =>
    have hrest : rest.length = 4 := by
      have hwhole := hshape.1
      rw [List.length_append, hlength] at hwhole
      omega
    rw [← hlength, List.drop_left] at htag
    obtain rfl := Option.some.inj htag
    exact vertex_eq_ok.2 ⟨padded, hpad, by rw [ordered32_readOrdered32 hrest]⟩
  · cases htag

end Key

end GraphStore
