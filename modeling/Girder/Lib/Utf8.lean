import Girder.Lib.Codec

/-!
# Utf8 — strings as bytes

The bytes of a string, the check that turns bytes back into one, and slicing by byte offsets, which is
defined only on character boundaries.  A string column is a concatenation cut by an offset table;
`sliceStr_join` reads one string back out of it.
-/

namespace Girder
namespace Lib

/-- The bytes of a string. -/
def utf8 (s : String) : List UInt8 := s.toByteArray.data.toList

/-- The string some bytes encode. -/
def fromUtf8 (bs : List UInt8) : Option String := String.fromUTF8? bs.toByteArray

/-- The bytes from `a` up to `b`, when both are character boundaries. -/
def sliceStr (s : String) (a b : Nat) : Option String :=
  if a ≤ b ∧ String.Pos.Raw.IsValid s ⟨a⟩ ∧ String.Pos.Raw.IsValid s ⟨b⟩ then
    String.fromUTF8? (s.toByteArray.extract a b)
  else
    none

theorem toByteArray_utf8 (s : String) : (utf8 s).toByteArray = s.toByteArray := by
  refine ByteArray.ext (Array.toList_inj.1 ?_)
  simp [utf8]

theorem fromUTF8?_toByteArray (s : String) : String.fromUTF8? s.toByteArray = some s := by
  simp [String.fromUTF8?, s.isValidUTF8, String.fromUTF8]

@[simp]
theorem fromUtf8_utf8 (s : String) : fromUtf8 (utf8 s) = some s := by
  rw [fromUtf8, toByteArray_utf8, fromUTF8?_toByteArray]

/-- A string that was decoded has the bytes it was decoded from. -/
theorem utf8_of_fromUtf8 {bs : List UInt8} {s : String} (h : fromUtf8 bs = some s) :
    utf8 s = bs := by
  rw [fromUtf8, String.fromUTF8?] at h
  split at h
  · rw [← Option.some.inj h]
    simp [utf8, String.fromUTF8]
  · cases h

@[simp]
theorem utf8_append (s t : String) : utf8 (s ++ t) = utf8 s ++ utf8 t := by
  simp [utf8, String.toByteArray_append]

@[simp]
theorem utf8_empty : utf8 "" = [] := rfl

theorem length_utf8 (s : String) : (utf8 s).length = s.utf8ByteSize := rfl

/-- A character takes a byte at least. -/
theorem length_le_utf8_ofList (l : List Char) : l.length ≤ (utf8 (String.ofList l)).length := by
  induction l with
  | nil => simp
  | cons c l ih =>
      have hsplit : String.ofList (c :: l) = String.singleton c ++ String.ofList l := by
        rw [← String.toList_inj]
        simp
      have hpos : 0 < (utf8 (String.singleton c)).length := by
        rw [length_utf8]
        simp [String.utf8ByteSize_singleton, Char.utf8Size_pos]
      rw [hsplit, utf8_append, List.length_append, List.length_cons]
      omega

theorem utf8_inj {s t : String} (h : utf8 s = utf8 t) : s = t := by
  have hs := fromUtf8_utf8 s
  rw [h, fromUtf8_utf8] at hs
  exact (Option.some.inj hs).symm

theorem foldl_append_string (l : List String) (s : String) :
    utf8 (l.foldl (· ++ ·) s) = utf8 s ++ l.flatMap utf8 := by
  induction l generalizing s with
  | nil => simp
  | cons t l ih => rw [List.foldl_cons, ih, utf8_append, List.flatMap_cons, List.append_assoc]

theorem utf8_join (l : List String) : utf8 (String.join l) = l.flatMap utf8 := by
  rw [String.join, foldl_append_string, utf8_empty, List.nil_append]

/-! ## Cutting a string -/

/-- `str::is_char_boundary`: the end of the string, or the first byte of a character. -/
def IsCharBoundary (bs : List UInt8) (a : Nat) : Prop :=
  a = bs.length ∨ ∃ b, bs[a]? = some b ∧ b.IsUTF8FirstByte

/-- The bytes of a string from `a` up to `b` are a string. -/
structure IsSlice (bs : List UInt8) (a b : Nat) : Prop where
  le : a ≤ b
  start : IsCharBoundary bs a
  stop : IsCharBoundary bs b

theorem isValid_iff_isCharBoundary {s : String} {a : Nat} :
    String.Pos.Raw.IsValid s ⟨a⟩ ↔ IsCharBoundary (utf8 s) a := by
  rw [String.Pos.Raw.isValid_iff_isUTF8FirstByte, IsCharBoundary]
  refine or_congr ?_ ?_
  · rw [String.Pos.Raw.ext_iff, length_utf8]
    rfl
  · constructor
    · rintro ⟨h, hb⟩
      exact ⟨_, List.getElem?_eq_getElem (l := utf8 s) h, hb⟩
    · rintro ⟨b, hget, hb⟩
      obtain ⟨h, rfl⟩ := List.getElem?_eq_some_iff.1 hget
      exact ⟨h, hb⟩

/-- A slice exists exactly between two boundaries in order. -/
theorem isSome_sliceStr_iff {s : String} {a b : Nat} :
    (sliceStr s a b).isSome = true ↔ IsSlice (utf8 s) a b := by
  rw [sliceStr]
  constructor
  · intro h
    split at h
    · rename_i hcut
      exact ⟨hcut.1, isValid_iff_isCharBoundary.1 hcut.2.1, isValid_iff_isCharBoundary.1 hcut.2.2⟩
    · cases h
  · intro h
    have hstart := isValid_iff_isCharBoundary.2 h.start
    have hstop := isValid_iff_isCharBoundary.2 h.stop
    have hvalid := (String.Pos.Raw.isValidUTF8_extract_iff ⟨a⟩ ⟨b⟩ h.le hstop.le_rawEndPos).2
      (Or.inr ⟨hstart, hstop⟩)
    rw [if_pos ⟨h.le, hstart, hstop⟩, String.fromUTF8?]
    simp [hvalid]

theorem isValid_append (s t : String) : String.Pos.Raw.IsValid (s ++ t) ⟨(utf8 s).length⟩ :=
  String.Pos.Raw.isValid_iff_exists_append.2 ⟨s, t, rfl, rfl⟩

/-- A string between two others is the slice between their ends. -/
theorem sliceStr_append (s t u : String) :
    sliceStr (s ++ t ++ u) (utf8 s).length ((utf8 s).length + (utf8 t).length) = some t := by
  have hstart : String.Pos.Raw.IsValid (s ++ t ++ u) ⟨(utf8 s).length⟩ := by
    rw [String.append_assoc]
    exact isValid_append s (t ++ u)
  have hend : String.Pos.Raw.IsValid (s ++ t ++ u) ⟨(utf8 s).length + (utf8 t).length⟩ := by
    have h := isValid_append (s ++ t) u
    rwa [utf8_append, List.length_append] at h
  rw [sliceStr, if_pos ⟨by omega, hstart, hend⟩]
  have hcut : (s ++ t ++ u).toByteArray.extract (utf8 s).length
      ((utf8 s).length + (utf8 t).length) = t.toByteArray := by
    have h := @ByteArray.extract_append_size_add s.toByteArray (t ++ u).toByteArray 0
      t.toByteArray.size
    rw [String.append_assoc, String.toByteArray_append]
    rw [String.toByteArray_append] at h ⊢
    exact h.trans (ByteArray.extract_append_eq_left rfl)
  rw [hcut, fromUTF8?_toByteArray]

/-- String `i` of a concatenation lies between its offsets. -/
theorem sliceStr_join {l : List String} {i : Nat} (hi : i < l.length) :
    sliceStr (String.join l) ((l.take i).flatMap utf8).length
      ((l.take (i + 1)).flatMap utf8).length = some l[i] := by
  have hsplit : String.join l =
      String.join (l.take i) ++ l[i] ++ String.join (l.drop (i + 1)) := by
    refine utf8_inj ?_
    rw [utf8_append, utf8_append, utf8_join, utf8_join, utf8_join]
    calc l.flatMap utf8 = (l.take i ++ l.drop i).flatMap utf8 := by rw [List.take_append_drop]
      _ = (l.take i).flatMap utf8 ++ utf8 l[i] ++ (l.drop (i + 1)).flatMap utf8 := by
          rw [List.drop_eq_getElem_cons hi, List.flatMap_append, List.flatMap_cons,
            List.append_assoc]
  have hend : ((l.take (i + 1)).flatMap utf8).length =
      ((l.take i).flatMap utf8).length + (utf8 l[i]).length := by
    rw [List.take_succ_eq_append_getElem hi, List.flatMap_append, List.length_append]
    simp
  rw [hsplit, hend, ← utf8_join (l.take i)]
  exact sliceStr_append _ _ _

end Lib
end Girder
