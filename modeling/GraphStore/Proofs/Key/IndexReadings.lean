import GraphStore.Proofs.Key.IndexRoundTrip
import GraphStore.Proofs.Key.Padding

/-!
# Index keys that can be read

An index key is made whatever the ids and the strings are, and then it may not be readable. If it
is, its strings were short enough for their lengths, and reading it gives the values as they are
kept and an entity that has the same bytes: ids come back without padding at their end.
-/

namespace GraphStore

namespace IndexLayout

variable {layout : IndexLayout} {part : PartId} {columns : List Column} {values found : List Value}
  {entity other : Entity} {key raw : Bytes} {encoded : Columns} {i : Nat}

/-- The entity read from its bytes has the same bytes, canonical ids, and the index's type. -/
theorem encodeEntity_decodeEntity (h : layout.encodeEntity entity = .ok raw) :
    layout.encodeEntity (layout.decodeEntity raw) = .ok raw ∧
      (∀ vid ∈ (layout.decodeEntity raw).vids, Canonical vid) ∧
      ∀ e, layout.decodeEntity raw = .edge e → layout.index.owner = .edge e.edgeType := by
  cases entity with
  | vertex vid =>
    obtain ⟨hedge, hpad⟩ := encodeEntity_vertex.1 h
    obtain ⟨hcanonical, hpadded⟩ := Key.padVid_unpadVid hpad
    cases howner : layout.index.owner with
    | edge edgeType =>
      rw [isEdge, howner] at hedge
      cases hedge
    | tag id =>
      simp only [decodeEntity, howner, Entity.vids, List.mem_singleton, forall_eq]
      refine ⟨encodeEntity_vertex.2 ⟨hedge, hpadded⟩, hcanonical, fun e he => ?_⟩
      cases he
  | edge e =>
    obtain ⟨hedge, src, dst, hsrc, hdst, rfl⟩ := encodeEntity_edge.1 h
    obtain ⟨hcanonicalSrc, hpaddedSrc⟩ := Key.padVid_unpadVid hsrc
    obtain ⟨hcanonicalDst, hpaddedDst⟩ := Key.padVid_unpadVid hdst
    have hwidth := Key.length_of_padVid hsrc
    have height := Key.length_ordered64 e.ranking
    cases howner : layout.index.owner with
    | tag id =>
      rw [isEdge, howner] at hedge
      cases hedge
    | edge edgeType =>
      have hread : layout.decodeEntity (src ++ Key.ordered64 e.ranking ++ dst) =
          .edge ⟨Key.unpadVid src, edgeType, e.ranking, Key.unpadVid dst⟩ := by
        simp only [decodeEntity, howner, List.append_assoc, List.take_left' hwidth,
          List.drop_left' hwidth, List.take_left' height, List.drop_left' height,
          Key.readOrdered64_ordered64]
      rw [hread]
      refine ⟨encodeEntity_edge.2 ⟨hedge, src, dst, hpaddedSrc, hpaddedDst, rfl⟩, ?_, ?_⟩
      · simp [Entity.vids, hcanonicalSrc, hcanonicalDst]
      · intro other hother
        cases hother
        rfl

/-- Lengths that are too small cut off too little. -/
theorem lengths_of_splitColumns (h : encodeColumns i columns values = .ok encoded)
    (hlength : values.length = columns.length) {lengths : List Nat}
    (hle : List.Forall₂ (· ≤ ·) lengths encoded.lengths) {bytes rest : Bytes} {raws : List Bytes}
    (hsplit : splitColumns columns lengths bytes = some (raws, rest)) :
    bytes.length ≤ encoded.bytes.length + rest.length ∧
      (bytes.length = encoded.bytes.length + rest.length → lengths = encoded.lengths) := by
  induction columns generalizing i values encoded lengths bytes raws with
  | nil =>
    rw [List.length_eq_zero_iff.1 hlength] at h
    cases h
    cases hle
    cases hsplit
    simp
  | cons column columns ih =>
    cases values with
    | nil => cases hlength
    | cons value values =>
      obtain ⟨first, others, hfirst, -, hothers, rfl⟩ := encodeColumns_cons.1 h
      have hrest := Nat.succ.inj hlength
      unfold splitColumns at hsplit
      split at hsplit
      · next width _ hwidth =>
        have hfixed : column.ty.isVarLen = false := by
          rw [isVarLen_eq_isNone, hwidth]
          rfl
        simp only [hfixed, Bool.false_eq_true, if_false] at hle ⊢
        split at hsplit
        · cases hsplit
        · obtain ⟨⟨cut, left⟩, hcut, hpair⟩ := Option.map_eq_some_iff.1 hsplit
          cases hpair
          obtain ⟨hbound, hexact⟩ := ih hothers hrest hle hcut
          rw [List.length_drop] at hbound hexact
          rw [List.length_append, length_of_encodeValue hfirst hwidth]
          exact ⟨by omega, fun heq => hexact (by omega)⟩
      · next length lengths hwidth =>
        have hvar : column.ty.isVarLen = true := by
          rw [isVarLen_eq_isNone, hwidth]
          rfl
        simp only [hvar, if_true] at hle ⊢
        obtain ⟨hfirstLe, hle⟩ := List.forall₂_cons.1 hle
        split at hsplit
        · cases hsplit
        · obtain ⟨⟨cut, left⟩, hcut, hpair⟩ := Option.map_eq_some_iff.1 hsplit
          cases hpair
          obtain ⟨hbound, hexact⟩ := ih hothers hrest hle hcut
          rw [List.length_drop] at hbound hexact
          rw [List.length_append]
          refine ⟨by omega, fun heq => ?_⟩
          have hfirst : length = first.length := by omega
          rw [hexact (by omega), hfirst]
      · cases hsplit

/-- Every string leaves its length. -/
theorem length_mem_of_encodeColumns (h : encodeColumns i columns values = .ok encoded)
    (hlength : values.length = columns.length) {s : String} (hs : .str s ∈ values) :
    (Utf8.ofString s).length ∈ encoded.lengths := by
  induction columns generalizing i values encoded with
  | nil =>
    rw [List.length_eq_zero_iff.1 hlength] at hs
    cases hs
  | cons column columns ih =>
    cases values with
    | nil => cases hlength
    | cons value values =>
      obtain ⟨first, others, hfirst, -, hothers, rfl⟩ := encodeColumns_cons.1 h
      dsimp only
      rcases List.mem_cons.1 hs with rfl | hs
      · obtain ⟨hstring, rfl⟩ : column.ty = .string ∧ Utf8.ofString s = first := by
          cases hty : column.ty <;> simp only [encodeValue, hty] at hfirst <;> cases hfirst
          exact ⟨rfl, rfl⟩
        have hvar : column.ty.isVarLen = true := decide_eq_true hstring
        rw [if_pos hvar]
        exact List.mem_cons_self
      · have hmem := ih hothers (Nat.succ.inj hlength) hs
        split
        · exact List.mem_cons_of_mem _ hmem
        · exact hmem

/-- The strings in a key that can be read are short. -/
theorem short_of_decodeKey (h : layout.encodeKey part values entity = .ok key)
    (hread : layout.decodeKey key = .ok (found, other)) :
    ∀ s, .str s ∈ values → (Utf8.ofString s).length < 2 ^ 32 := by
  obtain ⟨encoded, raw, hparts⟩ := encodeKey_eq_ok h
  have hkey := hparts.key_eq
  have htrailer := hparts.length_trailer
  have hend : key.drop (key.length - layout.trailerLength) =
      encoded.lengths.flatMap (Bytes.bigEndian 4) := by
    rw [← htrailer, ← hkey, ← List.append_assoc, ← List.append_assoc, List.length_append,
      Nat.add_sub_cancel, List.drop_left]
  have hlengths : readLengths layout.stringColumns (encoded.lengths.flatMap (Bytes.bigEndian 4)) =
      encoded.lengths.map (· % 256 ^ 4) := by
    rw [← hparts.length_lengths, readLengths_flatMap_mod]
  have hbody : (key.drop stemLength).length = encoded.bytes.length +
      (layout.nullMapLength + layout.entityLength + layout.trailerLength) := by
    rw [← hkey, List.drop_left' (length_indexStem ..)]
    simp only [List.length_append, Bytes.length_bigEndian, length_encodeEntity hparts.entity,
      htrailer]
  have hsmaller : List.Forall₂ (· ≤ ·) (encoded.lengths.map (· % 256 ^ 4)) encoded.lengths := by
    rw [List.forall₂_map_left_iff]
    exact List.forall₂_same.2 fun n _ => Nat.mod_le ..
  unfold decodeKey at hread
  simp only [hend, hlengths] at hread
  split at hread
  · cases hread
  · split at hread
    · cases hread
    · next raws rest hsplit =>
      split at hread
      · cases hread
      · next hrest =>
        rw [not_not] at hrest
        have hexact := (lengths_of_splitColumns hparts.columns hparts.length_eq hsmaller hsplit).2
          (by rw [hbody, hrest])
        intro s hs
        have hmem := length_mem_of_encodeColumns hparts.columns hparts.length_eq hs
        rw [← hexact] at hmem
        obtain ⟨n, -, heq⟩ := List.mem_map.1 hmem
        rw [← heq]
        exact Nat.mod_lt _ (by decide)

/-- A key with short strings can be read: it gives its values as they are kept, and the entity of
its bytes. -/
theorem decodeKey_of_short (h : layout.encodeKey part values entity = .ok key)
    (hshort : ∀ s, .str s ∈ values → (Utf8.ofString s).length < 2 ^ 32) :
    layout.decodeKey key = .ok
      (keptValues layout.index.columns values, layout.decodeEntity (layout.entityBytes key)) := by
  have hraw := encodeEntity_of_encodeKey h
  obtain ⟨hsame, hcanonical, hedge⟩ := encodeEntity_decodeEntity hraw
  have hentry : Recoverable layout values (layout.decodeEntity (layout.entityBytes key)) :=
    ⟨hshort, hcanonical, hedge⟩
  have hkey : layout.encodeKey part values (layout.decodeEntity (layout.entityBytes key)) =
      .ok key := by
    rw [← h, encodeKey, encodeKey, hsame, hraw]
  exact decodeKey_of_encodeKey hentry hkey

/-- Reading a key that can be read gives its values as they are kept, and an entity of the same
bytes. -/
theorem of_decodeKey (h : layout.encodeKey part values entity = .ok key)
    (hread : layout.decodeKey key = .ok (found, other)) :
    found = keptValues layout.index.columns values ∧
      layout.encodeEntity other = layout.encodeEntity entity := by
  have hraw := encodeEntity_of_encodeKey h
  obtain ⟨hsame, -, -⟩ := encodeEntity_decodeEntity hraw
  have hkept := decodeKey_of_short h (short_of_decodeKey h hread)
  rw [hread] at hkept
  obtain ⟨rfl, rfl⟩ := Prod.mk.inj (Except.ok.inj hkept)
  exact ⟨rfl, hsame.trans hraw.symm⟩

end IndexLayout

end GraphStore
