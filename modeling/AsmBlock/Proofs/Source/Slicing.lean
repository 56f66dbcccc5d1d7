import AsmBlock.Proofs.Source.Characters
import AsmBlock.Token

/-!
# Slices of a source

A slice reads bytes back as text, and so gives text only where it cuts at characters on both sides.
Everywhere else it is empty, whatever the order of its ends and wherever they lie
(`Source.slice_eq_extract`).  The text of a token is a slice and shares this: it has the length of
the token or none.
-/

namespace AsmBlock

namespace Utf8

theorem fromUTF8?_of_not_isValidUTF8 {bytes : ByteArray} (h : ¬ bytes.IsValidUTF8) :
    String.fromUTF8? bytes = none := by
  rw [String.fromUTF8?, dif_neg h]

end Utf8

namespace Source

variable {source : Source} {start stop : Nat}

/-! ## Where a slice is cut -/

/-- A slice between offsets of the text that are not both at characters is empty. -/
theorem slice_of_not_isValid (hstop : stop ≤ source.size)
    (h : ¬ ((String.Pos.Raw.mk start).IsValid source.text ∧
      (String.Pos.Raw.mk stop).IsValid source.text)) : source.slice start stop = "" := by
  by_cases hle : start ≤ stop
  · rw [slice, if_pos ⟨hle, hstop⟩, source.extract_buffer start hstop]
    by_cases heq : start = stop
    · -- no bytes are the empty text, also inside a character
      have hempty : source.text.toByteArray.extract start stop = "".toByteArray := by
        rw [heq]
        exact ByteArray.extract_eq_empty_iff.mpr (by omega)
      rw [hempty, Utf8.fromUTF8?_toByteArray]
      rfl
    · have hinvalid : ¬ (source.text.toByteArray.extract start stop).IsValidUTF8 := by
        intro hvalid
        rcases (String.Pos.Raw.isValidUTF8_extract_iff ⟨start⟩ ⟨stop⟩ hle hstop).mp hvalid with
          hpos | hpos
        · exact heq (congrArg String.Pos.Raw.byteIdx hpos)
        · exact h hpos
      rw [Utf8.fromUTF8?_of_not_isValidUTF8 hinvalid]
      rfl
  · exact if_neg fun hrange => hle hrange.1

variable (source start stop)

/-- A slice is the text between two positions where its offsets are such, and empty elsewhere. -/
theorem slice_eq_extract : source.slice start stop =
    if h : (start ≤ stop ∧ stop ≤ source.size) ∧ (String.Pos.Raw.mk start).IsValid source.text ∧
        (String.Pos.Raw.mk stop).IsValid source.text then
      source.text.extract (source.text.pos ⟨start⟩ h.2.1) (source.text.pos ⟨stop⟩ h.2.2)
    else "" := by
  split
  · next h =>
    have hle : source.text.pos ⟨start⟩ h.2.1 ≤ source.text.pos ⟨stop⟩ h.2.2 := h.1.1
    exact slice_pos hle
  · next h =>
    by_cases hrange : start ≤ stop ∧ stop ≤ source.size
    · exact slice_of_not_isValid hrange.2 fun hvalid => h ⟨hrange, hvalid⟩
    · exact if_neg hrange

/-- A slice that is not empty has all the bytes between its offsets. -/
theorem utf8ByteSize_slice :
    source.slice start stop = "" ∨ (source.slice start stop).utf8ByteSize = stop - start := by
  rw [slice_eq_extract]
  split
  · next h =>
    have hle : source.text.pos ⟨start⟩ h.2.1 ≤ source.text.pos ⟨stop⟩ h.2.2 := h.1.1
    exact .inr (utf8ByteSize_extract hle)
  · exact .inl rfl

variable {source}

/-- Slices that meet at a character make up the slice over both. -/
theorem slice_append {first middle last : source.text.Pos} (hfirst : first ≤ middle)
    (hlast : middle ≤ last) :
    source.slice first.offset.byteIdx middle.offset.byteIdx ++
        source.slice middle.offset.byteIdx last.offset.byteIdx =
      source.slice first.offset.byteIdx last.offset.byteIdx := by
  have hfirst' : first.offset.byteIdx ≤ middle.offset.byteIdx := hfirst
  have hlast' : middle.offset.byteIdx ≤ last.offset.byteIdx := hlast
  rw [slice_pos hfirst, slice_pos hlast, slice_pos (Nat.le_trans hfirst' hlast'),
    ← String.toByteArray_inj, String.toByteArray_append, String.toByteArray_extract,
    String.toByteArray_extract, String.toByteArray_extract, ByteArray.extract_append_extract,
    Nat.min_eq_left hfirst', Nat.max_eq_right hlast']

end Source

/-! ## Cursors and tokens -/

/-- **A slice is exact.**  Wherever its cursor stands, a slice is the text between its offsets if
they are in order, within the text and both at characters, and empty otherwise.  Slices that meet
add up.  The text of a token, whatever its ends, is empty or has the token's length, and an empty
token has no text. -/
theorem Cursor.slice_is_exact (source : Source) :
    (∀ pos start stop : Nat, (Cursor.mk source pos).slice start stop =
      if h : (start ≤ stop ∧ stop ≤ source.size) ∧
          (String.Pos.Raw.mk start).IsValid source.text ∧
          (String.Pos.Raw.mk stop).IsValid source.text then
        source.text.extract (source.text.pos ⟨start⟩ h.2.1) (source.text.pos ⟨stop⟩ h.2.2)
      else "") ∧
    (∀ (pos : Nat) (first middle last : source.text.Pos), first ≤ middle → middle ≤ last →
      (Cursor.mk source pos).slice first.offset.byteIdx middle.offset.byteIdx ++
          (Cursor.mk source pos).slice middle.offset.byteIdx last.offset.byteIdx =
        (Cursor.mk source pos).slice first.offset.byteIdx last.offset.byteIdx) ∧
    ∀ token : Token,
      (token.text source = "" ∨ (token.text source).utf8ByteSize = token.length) ∧
      (token.isEmpty = true → token.text source = "") := by
  refine ⟨?_, ?_, ?_⟩
  · intro pos start stop
    exact source.slice_eq_extract start stop
  · intro pos first middle last hfirst hlast
    exact Source.slice_append hfirst hlast
  · intro token
    have hsize := source.utf8ByteSize_slice token.start token.stop
    refine ⟨hsize, ?_⟩
    intro hempty
    have hlength : token.length = 0 := eq_of_beq hempty
    rcases hsize with htext | htext
    · exact htext
    · exact String.utf8ByteSize_eq_zero_iff.mp (htext.trans hlength)

/-- A slice from inside an accented letter, one whose ends are out of order, and one in order. -/
example : let source := Source.ofText "aéb" (by decide)
    (source.slice 2 4, source.slice 3 1, source.slice 1 4) = ("", "", "éb") := by
  cbv

end AsmBlock
