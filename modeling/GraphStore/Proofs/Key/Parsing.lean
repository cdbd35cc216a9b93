import GraphStore.Proofs.Key.Distinct

/-!
# Keys of rows read back

An edge is read back from its key up to the padding of its ids, and so is the partition from the
header. In turn a key from which an edge is read, in whose fields there is text, is the key of that
edge in that partition. The first byte keeps the kinds of keys apart, for writing and for reading.
-/

namespace GraphStore

namespace Key

variable {vidLen width : Nat} {part : PartId} {vid : VertexId} {tag : TagId} {e : EdgeKey}
  {key rest : Bytes} {kind : UInt8}

/-- The partition in the header of a key. -/
def partOf (key : Bytes) : PartId := Int32.ofNat (Bytes.toNat ((key.drop 1).take 3))

/-- The bytes of an edge's source in its key. -/
def srcField (vidLen : Nat) (key : Bytes) : Bytes := (key.drop headerLength).take vidLen

/-- The bytes of an edge's destination in its key. -/
def dstField (vidLen : Nat) (key : Bytes) : Bytes := ((key.drop headerLength).drop vidLen).drop 12

/-- A partition number of three bytes is found again in the header. -/
theorem partOf_header (hpos : 0 ≤ part) (hlt : part < 0x1000000) :
    partOf (header kind part ++ rest) = part := by
  have hmin : 0 ≤ part.toInt := Int32.le_iff_toInt_le.1 hpos
  have hmax : part.toInt < 0x1000000 := Int32.lt_iff_toInt_lt.1 hlt
  have hvalue : part.toInt = _ := BitVec.toInt_eq_toNat_cond part.toBitVec
  have hbits : part.toBitVec.toNat = part.toUInt32.toNat := rfl
  have hfits : part.toUInt32.toNat < 256 ^ 3 := by
    rw [hbits] at hvalue
    split at hvalue <;> omega
  have hbytes : ((header kind part ++ rest).drop 1).take 3 =
      Bytes.bigEndian 3 part.toUInt32.toNat := by
    rw [header, List.cons_append, List.drop_succ_cons, List.drop_zero,
      List.take_left' (Bytes.length_bigEndian ..)]
  rw [partOf, hbytes, Bytes.toNat_bigEndian, Nat.mod_eq_of_lt hfits]
  exact congrArg Int32.ofUInt32 (UInt32.ofNat_toNat ..)

/-- A header is made of its kind and the partition in it. -/
theorem header_partOf (hkind : key.head? = some kind) (hlength : headerLength ≤ key.length) :
    header kind (partOf key) = key.take headerLength := by
  obtain ⟨rest, rfl⟩ := List.head?_eq_some_iff.1 hkind
  have hrest : (rest.take 3).length = 3 := by
    rw [List.length_take]
    simp only [List.length_cons, headerLength] at hlength
    omega
  have hlt := Bytes.toNat_lt (rest.take 3)
  rw [hrest] at hlt
  have hpart : (partOf (kind :: rest)).toUInt32.toNat = Bytes.toNat (rest.take 3) := by
    have hvalue : (partOf (kind :: rest)).toUInt32.toNat = Bytes.toNat (rest.take 3) % 2 ^ 32 := rfl
    omega
  have hbytes := Bytes.bigEndian_toNat (rest.take 3)
  rw [hrest] at hbytes
  rw [header, hpart, hbytes]
  rfl

/-- The parts of an edge row's key: the header, the source, the edge type, the ranking and the
destination. -/
structure EdgeParts (vidLen : Nat) (head src ty ranking dst key : Bytes) : Prop where
  length_head : head.length = headerLength
  length_src : src.length = vidLen
  length_ty : ty.length = 4
  length_ranking : ranking.length = 8
  length_dst : dst.length = vidLen
  key_eq : head ++ (src ++ (ty ++ (ranking ++ dst))) = key

namespace EdgeParts

variable {head src ty ranking dst : Bytes}

/-- What is behind the header. -/
theorem drop_head (h : EdgeParts vidLen head src ty ranking dst key) :
    key.drop headerLength = src ++ (ty ++ (ranking ++ dst)) := by
  rw [← h.key_eq, List.drop_left' h.length_head]

/-- What is behind the source. -/
theorem drop_src (h : EdgeParts vidLen head src ty ranking dst key) :
    (key.drop headerLength).drop vidLen = ty ++ (ranking ++ dst) := by
  rw [h.drop_head, List.drop_left' h.length_src]

/-- The bytes of the source. -/
theorem srcField_eq (h : EdgeParts vidLen head src ty ranking dst key) :
    srcField vidLen key = src := by
  rw [srcField, h.drop_head, List.take_left' h.length_src]

/-- The bytes of the destination. -/
theorem dstField_eq (h : EdgeParts vidLen head src ty ranking dst key) :
    dstField vidLen key = dst := by
  have hfixed : (ty ++ ranking).length = 12 := by
    rw [List.length_append, h.length_ty, h.length_ranking]
  rw [dstField, h.drop_src, ← List.append_assoc, List.drop_left' hfixed]

/-- The parts take up the whole key. -/
theorem length_key (h : EdgeParts vidLen head src ty ranking dst key) :
    key.length = headerLength + vidLen * 2 + 12 := by
  rw [← h.key_eq]
  simp only [List.length_append, h.length_head, h.length_src, h.length_ty, h.length_ranking,
    h.length_dst]
  omega

/-- An edge is read from the parts. -/
theorem edge?_eq (h : EdgeParts vidLen head src ty ranking dst key)
    (hkind : key.head? = some edgeKind) :
    edge? vidLen key =
      some ⟨unpadVid src, readOrdered32 ty, readOrdered64 ranking, unpadVid dst⟩ := by
  have hsrc : (key.drop headerLength).take vidLen = src := h.srcField_eq
  have hdst : ((key.drop headerLength).drop vidLen).drop 12 = dst := h.dstField_eq
  rw [edge?, if_pos ⟨h.length_key, hkind⟩]
  dsimp only
  rw [hsrc, hdst, h.drop_src, List.take_left' h.length_ty, List.drop_left' h.length_ty,
    List.take_left' h.length_ranking]

end EdgeParts

/-- A key of the right length has its parts. -/
theorem exists_edgeParts (h : key.length = headerLength + vidLen * 2 + 12) :
    ∃ src ty ranking dst, EdgeParts vidLen (key.take headerLength) src ty ranking dst key := by
  let body := key.drop headerLength
  let fields := body.drop vidLen
  have hbody : body.length = vidLen * 2 + 12 := by
    rw [List.length_drop]
    omega
  have hfields : fields.length = vidLen + 12 := by
    rw [List.length_drop]
    omega
  refine ⟨body.take vidLen, fields.take 4, (fields.drop 4).take 8, (fields.drop 4).drop 8,
    ?_, ?_, ?_, ?_, ?_, ?whole⟩
  case whole =>
    rw [List.take_append_drop, List.take_append_drop, List.take_append_drop,
      List.take_append_drop]
  all_goals
    simp only [List.length_take, List.length_drop]
    omega

/-- An edge is read back from its key up to padding. -/
theorem edge?_of_edge (h : edge vidLen part e = .ok key) : edge? vidLen key = some e.unpadded := by
  obtain ⟨src, dst, hsrc, hdst, hkey⟩ := edge_eq_ok.1 h
  have hparts : EdgeParts vidLen (header edgeKind part) src (ordered32 e.edgeType)
      (ordered64 e.ranking) dst key :=
    ⟨length_header .., length_of_padVid hsrc, length_ordered32 _, length_ordered64 _,
      length_of_padVid hdst, by rw [← hkey]; simp only [List.append_assoc]⟩
  rw [hparts.edge?_eq (head?_of_edge h), unpadVid_eq_unpadded hsrc, unpadVid_eq_unpadded hdst,
    readOrdered32_ordered32, readOrdered64_ordered64, EdgeKey.unpadded]

/-- What an edge is read from has the length and the kind of an edge row's key. -/
theorem isSome_edge? : (edge? vidLen key).isSome = true ↔
    key.length = headerLength + vidLen * 2 + 12 ∧ key.head? = some edgeKind := by
  unfold edge?
  split <;> simp_all

/-- What a tag is read from has the length and the kind of a tag row's key. -/
theorem isSome_tagOfVertex? : (tagOfVertex? vidLen key).isSome = true ↔
    key.length = headerLength + vidLen + 4 ∧ key.head? = some vertexKind := by
  unfold tagOfVertex?
  split <;> simp_all

/-- A key that an edge is read from is that of the edge in the partition of its header, if both ids
in it are UTF-8 text. -/
theorem edge_of_edge? {src dst : List Char} (h : edge? vidLen key = some e)
    (hsrc : Utf8.decode? (srcField vidLen key) = some src)
    (hdst : Utf8.decode? (dstField vidLen key) = some dst) :
    edge vidLen (partOf key) e = .ok key := by
  obtain ⟨hlength, hkind⟩ := isSome_edge?.1 (Option.isSome_of_eq_some h)
  obtain ⟨source, ty, ranking, destination, hparts⟩ := exists_edgeParts hlength
  rw [hparts.edge?_eq hkind] at h
  cases h
  rw [hparts.srcField_eq] at hsrc
  rw [hparts.dstField_eq] at hdst
  refine edge_eq_ok.2 ⟨source, destination, padVid_unpadVid_of_text hsrc hparts.length_src,
    padVid_unpadVid_of_text hdst hparts.length_dst, ?_⟩
  calc header edgeKind (partOf key) ++ source ++ ordered32 (readOrdered32 ty) ++
          ordered64 (readOrdered64 ranking) ++ destination
      = key.take headerLength ++ source ++ ty ++ ranking ++ destination := by
        rw [header_partOf hkind (by omega), ordered32_readOrdered32 hparts.length_ty,
          ordered64_readOrdered64 hparts.length_ranking]
    _ = key := by simpa only [List.append_assoc] using hparts.key_eq

end Key

/-- A key of another kind is not read as that of an index entry. -/
theorem IndexLayout.decodeKey_of_head?_ne (layout : IndexLayout) {key : Bytes}
    (h : key.head? ≠ some Key.indexKind) : layout.decodeKey key = .error .unknown := by
  rw [decodeKey]
  dsimp only
  rw [if_pos (.inr h)]

namespace Key

variable {vidLen width : Nat} {part : PartId} {e : EdgeKey} {key : Bytes}

/-- The key of an edge row is not that of a tag row or of an index entry. -/
theorem ne_of_edge (h : edge vidLen part e = .ok key) :
    (∀ width other vid tag, vertex width other vid tag ≠ .ok key) ∧
      ∀ (layout : IndexLayout) other values entity,
        layout.encodeKey other values entity ≠ .ok key := by
  have hkind := head?_of_edge h
  constructor
  · intro width other vid tag hvertex
    cases hkind.symm.trans (head?_of_vertex hvertex)
  · intro layout other values entity hentry
    have hindex := IndexLayout.head?_of_indexStem_prefix (IndexLayout.indexStem_prefix hentry)
    cases hkind.symm.trans hindex

/-- A key that an edge is read from is read neither as that of a tag row nor as that of an index
entry. -/
theorem unread_of_edge? (h : edge? vidLen key = some e) :
    (∀ width, tagOfVertex? width key = none) ∧
      ∀ layout : IndexLayout, layout.decodeKey key = .error .unknown := by
  obtain ⟨-, hkind⟩ := isSome_edge?.1 (Option.isSome_of_eq_some h)
  constructor
  · intro width
    refine Option.not_isSome_iff_eq_none.1 fun htag => ?_
    cases hkind.symm.trans (isSome_tagOfVertex?.1 htag).2
  · intro layout
    refine layout.decodeKey_of_head?_ne fun hindex => ?_
    cases hkind.symm.trans hindex

/-- Edges with canonical ids that fit, and the tags of all tag rows, are read back from their keys. A
key that an edge is read from is in turn that of the edge, if its ids are UTF-8 text. What is read as
the key of an edge is neither written nor read as a key of another kind, and nothing is read from a key
of another length or kind. -/
theorem read_back (vidLen : Nat) :
    (∀ part (e : EdgeKey), (Utf8.ofString e.src).length ≤ vidLen →
      (Utf8.ofString e.dst).length ≤ vidLen → Canonical e.src → Canonical e.dst →
      ∃ key, edge vidLen part e = .ok key ∧ edge? vidLen key = some e ∧
        (0 ≤ part → part < 0x1000000 → partOf key = part)) ∧
    (∀ part vid tag key, vertex vidLen part vid tag = .ok key →
      tagOfVertex? vidLen key = some tag) ∧
    (∀ key e src dst, edge? vidLen key = some e → Utf8.decode? (srcField vidLen key) = some src →
      Utf8.decode? (dstField vidLen key) = some dst → edge vidLen (partOf key) e = .ok key) ∧
    (∀ part e key, edge vidLen part e = .ok key →
      (∀ width other vid tag, vertex width other vid tag ≠ .ok key) ∧
        ∀ (layout : IndexLayout) other values entity,
          layout.encodeKey other values entity ≠ .ok key) ∧
    (∀ key e, edge? vidLen key = some e → (∀ width, tagOfVertex? width key = none) ∧
      ∀ layout : IndexLayout, layout.decodeKey key = .error .unknown) ∧
    ∀ key : Bytes,
      (key.length ≠ headerLength + vidLen * 2 + 12 ∨ key.head? ≠ some edgeKind →
        edge? vidLen key = none) ∧
      (key.length ≠ headerLength + vidLen + 4 ∨ key.head? ≠ some vertexKind →
        tagOfVertex? vidLen key = none) := by
  refine ⟨?edges, fun _ _ _ _ => tagOfVertex?_of_vertex, fun _ _ _ _ => edge_of_edge?,
    fun _ _ _ => ne_of_edge, fun _ _ => unread_of_edge?, ?others⟩
  case edges =>
    intro part e hsrc hdst hcanonicalSrc hcanonicalDst
    obtain ⟨key, hkey⟩ := exists_edgeKey.2 ⟨hsrc, hdst⟩
    refine ⟨key, hkey, ?_, fun hpos hlt => ?_⟩
    · rw [edge?_of_edge hkey, EdgeKey.unpadded, hcanonicalSrc.unpadded_eq,
        hcanonicalDst.unpadded_eq]
    · obtain ⟨src, dst, -, -, rfl⟩ := edge_eq_ok.1 hkey
      simp only [List.append_assoc, partOf_header hpos hlt]
  case others =>
    refine fun key => ⟨fun hother => ?_, fun hother => ?_⟩
    · refine Option.not_isSome_iff_eq_none.1 fun hread => ?_
      obtain ⟨hlength, hkind⟩ := isSome_edge?.1 hread
      exact hother.elim (fun hne => hne hlength) fun hne => hne hkind
    · refine Option.not_isSome_iff_eq_none.1 fun hread => ?_
      obtain ⟨hlength, hkind⟩ := isSome_tagOfVertex?.1 hread
      exact hother.elim (fun hne => hne hlength) fun hne => hne hkind

/-- A friendship and a person are read back from their keys. -/
theorem read_back_of_friendship :
    let e : EdgeKey := ⟨"a", 7, -3, "é"⟩
    let key : Bytes :=
      [2, 0, 0, 12, 97, 0, 128, 0, 0, 7, 127, 255, 255, 255, 255, 255, 255, 253, 195, 169]
    let person : Bytes := [1, 0, 0, 12, 97, 0, 128, 0, 0, 3]
    (∃ key, edge 2 12 e = .ok key ∧ edge? 2 key = some e ∧ partOf key = 12) ∧
      (vertex 2 12 "a" 3 = .ok person ∧ tagOfVertex? 2 person = some 3) ∧
      (edge? 2 key = some e ∧ edge 2 (partOf key) e = .ok key) ∧
      vertex 2 12 "a" 3 ≠ .ok key ∧ tagOfVertex? 2 key = none ∧ edge? 2 person = none := by
  intro e key person
  obtain ⟨hedges, htags, hkeys, hkinds, hreads, hothers⟩ := read_back 2
  have hread : edge? 2 key = some e := by decide +kernel
  have hperson : vertex 2 12 "a" 3 = .ok person := by decide
  have hkey : edge 2 (partOf key) e = .ok key :=
    hkeys key e ['a', '\x00'] ['é'] hread (by decide +kernel) (by decide +kernel)
  obtain ⟨own, hown, hback, hpart⟩ :=
    hedges 12 e (by decide) (by decide) (by decide) (by decide)
  exact ⟨⟨own, hown, hback, hpart (by decide) (by decide)⟩,
    ⟨hperson, htags 12 "a" 3 person hperson⟩, ⟨hread, hkey⟩, (hkinds _ e key hkey).1 2 12 "a" 3,
    (hreads key e hread).1 2, (hothers person).1 (.inl (by decide))⟩

end Key

end GraphStore
