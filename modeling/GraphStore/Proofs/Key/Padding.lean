import GraphStore.Proofs.Key.Rows
import Mathlib.Data.List.DropRight

/-!
# What padding hides of an id

An id is its canonical form with zero characters behind it. The form is what is read back from a
field of the space's width, and two ids fill the field alike just when they have the same form.
-/

namespace GraphStore

/-- A list is what is left without the copies of an element at its end, and these copies. -/
theorem exists_rdropWhile_append_replicate {α : Type} [DecidableEq α] (l : List α) (a : α) :
    ∃ count, l.rdropWhile (· == a) ++ List.replicate count a = l := by
  have hcopies (b : α) (hb : b ∈ l.rtakeWhile (· == a)) : b = a :=
    beq_iff_eq.1 (List.mem_rtakeWhile_imp (p := (· == a)) hb)
  refine ⟨(l.rtakeWhile (· == a)).length, ?_⟩
  rw [← List.eq_replicate_of_mem hcopies, List.rdropWhile_append_rtakeWhile]

namespace Bytes

/-- Zero bytes within the field are part of the padding. -/
theorem padTo_append_replicate {width count : Nat} {bytes : Bytes}
    (h : bytes.length + count ≤ width) :
    padTo width (bytes ++ List.replicate count 0) = padTo width bytes := by
  rw [padTo, padTo, List.append_assoc, List.replicate_append_replicate, List.length_append,
    List.length_replicate]
  congr 2
  omega

end Bytes

/-- An id without the zero characters at its end. -/
def VertexId.unpadded (vid : VertexId) : VertexId := String.ofList (vid.toList.rdropWhile (· == '\x00'))

/-- What is left without the zero characters does not end in one. -/
theorem canonical_unpadded (vid : VertexId) : Canonical (VertexId.unpadded vid) := by
  rw [Canonical, VertexId.unpadded, String.toList_ofList]
  intro hlast
  have hne : vid.toList.rdropWhile (· == '\x00') ≠ [] := by
    intro hnil
    rw [hnil] at hlast
    cases hlast
  rw [List.getLast?_eq_some_getLast hne] at hlast
  exact List.rdropWhile_last_not _ _ hne (beq_iff_eq.2 (Option.some.inj hlast))

/-- A canonical id has no zero characters at its end. -/
theorem Canonical.unpadded_eq {vid : VertexId} (h : Canonical vid) : VertexId.unpadded vid = vid := by
  rw [VertexId.unpadded, List.rdropWhile_eq_self_iff.2, String.ofList_toList]
  intro hne hlast
  exact h (List.getLast?_eq_some_getLast hne ▸ congrArg some (beq_iff_eq.1 hlast))

/-- The bytes of an id are those of its canonical form and zero bytes. -/
theorem exists_ofString_unpadded_append (vid : VertexId) :
    ∃ count, Utf8.ofString (VertexId.unpadded vid) ++ List.replicate count 0 = Utf8.ofString vid := by
  obtain ⟨count, hcount⟩ := exists_rdropWhile_append_replicate vid.toList '\x00'
  have hzeros (count : Nat) :
      Utf8.encode (List.replicate count '\x00') = List.replicate count 0 := by
    induction count with
    | zero => rfl
    | succ count ih =>
      rw [List.replicate_succ, Utf8.encode, List.flatMap_cons, ← Utf8.encode, ih]
      rfl
  refine ⟨count, ?_⟩
  rw [Utf8.ofString, Utf8.ofString, VertexId.unpadded, String.toList_ofList, ← hzeros, Utf8.encode,
    Utf8.encode, ← List.flatMap_append, hcount]
  rfl

namespace Key

variable {vidLen : Nat} {vid other : VertexId} {padded otherPadded : Bytes}

/-- An id fills the field like its canonical form. -/
theorem padVid_unpadded (h : padVid vidLen vid = .ok padded) :
    padVid vidLen (VertexId.unpadded vid) = .ok padded := by
  obtain ⟨count, hcount⟩ := exists_ofString_unpadded_append vid
  obtain ⟨hfits, rfl⟩ := padVid_eq_ok.1 h
  rw [← hcount, List.length_append, List.length_replicate] at hfits
  exact padVid_eq_ok.2 ⟨by omega, by rw [← hcount, Bytes.padTo_append_replicate hfits]⟩

/-- The canonical form of an id is read back from the field. -/
theorem unpadVid_eq_unpadded (h : padVid vidLen vid = .ok padded) :
    unpadVid padded = VertexId.unpadded vid :=
  unpadVid_of_padVid (canonical_unpadded vid) (padVid_unpadded h)

/-- The id read from a padded field is canonical and fills the field again. -/
theorem padVid_unpadVid (h : padVid vidLen vid = .ok padded) :
    Canonical (unpadVid padded) ∧ padVid vidLen (unpadVid padded) = .ok padded := by
  rw [unpadVid_eq_unpadded h]
  exact ⟨canonical_unpadded vid, padVid_unpadded h⟩

/-- A field that is UTF-8 text is filled by the id that is read from it. -/
theorem padVid_unpadVid_of_text {text : List Char} (h : Utf8.decode? padded = some text)
    (hwidth : padded.length = vidLen) : padVid vidLen (unpadVid padded) = .ok padded := by
  subst hwidth
  have hbytes : Utf8.ofString (String.ofList text) = padded := by
    rw [Utf8.ofString, String.toList_ofList, Utf8.encode_of_decode? h]
  have hfull : padVid padded.length (String.ofList text) = .ok padded :=
    padVid_eq_ok.2 ⟨by rw [hbytes], by rw [hbytes, Bytes.padTo, Nat.sub_self]; exact List.append_nil _⟩
  exact (padVid_unpadVid hfull).2

/-- Ids fill the field alike when they have the same canonical form. -/
theorem padVid_eq_iff (h : padVid vidLen vid = .ok padded)
    (h' : padVid vidLen other = .ok otherPadded) :
    padVid vidLen vid = padVid vidLen other ↔
      VertexId.unpadded vid = VertexId.unpadded other := by
  constructor
  · intro hsame
    rw [h, h'] at hsame
    cases hsame
    rw [← unpadVid_eq_unpadded h, unpadVid_eq_unpadded h']
  · intro hsame
    rw [h, h', ← padVid_unpadded h, hsame, padVid_unpadded h']

end Key

end GraphStore
