import AsmBlock.Proofs.Source.Characters

/-!
# What a cursor reads

In front of a character a cursor reads that character and steps behind it.  Inside a character it
reads the replacement character and steps one byte, so it comes to the next character after as many
steps as bytes are between.
-/

namespace AsmBlock

namespace Source

variable {source : Source} {pos : Nat} {rest : List Char}

/-! ## Bytes of the text -/

theorem byte_pos {text : String} {here : text.Pos} (hend : here ≠ text.endPos)
    (hlt : here.offset.byteIdx < text.toByteArray.size) :
    text.toByteArray[here.offset.byteIdx] = here.byte hend := by
  simp only [String.Pos.byte, String.Slice.Pos.byte, String.Slice.getUTF8Byte,
    String.getUTF8Byte_eq_getElem]
  simp

theorem byteAt_pos {here : source.text.Pos} (hend : here ≠ source.text.endPos) :
    source.byteAt here.offset.byteIdx = .ok (here.byte hend) := by
  have hlt : here.offset.byteIdx < source.size := here.byteIdx_lt_utf8ByteSize hend
  rw [byteAt_of_lt source hlt, byte_pos hend hlt]

/-- Where no character starts, the byte of the text starts none. -/
theorem not_isUTF8FirstByte_of_not_isValid (hpos : pos < source.size)
    (hvalid : ¬ (String.Pos.Raw.mk pos).IsValid source.text) :
    ¬ (source.text.toByteArray[pos]).IsUTF8FirstByte := by
  intro hfirst
  exact hvalid (String.Pos.Raw.isValid_iff_isUTF8FirstByte.mpr (.inr ⟨hpos, hfirst⟩))

end Source

namespace Cursor

variable {source : Source} {pos : Nat} {rest : List Char}

theorem atEnd_size (source : Source) : (Cursor.mk source source.size).atEnd = .ok true := by
  rw [atEnd_of_lt_size_buffer source.size_lt_size_buffer]
  simp

theorem atEnd_of_restAt_nil (h : source.RestAt pos []) :
    (Cursor.mk source pos).atEnd = .ok true := by
  have hpos : pos = source.size := h.pos_add_size
  rw [hpos, atEnd_size]

theorem char_of_restAt_nil (h : source.RestAt pos []) :
    (Cursor.mk source pos).char = .ok '\x00' := by
  have hpos : pos = source.size := h.pos_add_size
  have hbyte : (Cursor.mk source pos).byte = .ok 0 := by
    rw [hpos]
    exact Source.byteAt_of_le source (Nat.le_refl _) source.size_lt_size_buffer
  rw [char, hbyte]
  rfl

/-! ## The width of a character -/

theorem width_byte {text : String} {here : text.Pos} (hend : here ≠ text.endPos) :
    Utf8.width (here.byte hend) = (here.get hend).utf8Size := by
  rw [Utf8.width_of_isUTF8FirstByte here.isUTF8FirstByte_byte, String.Pos.utf8ByteSize_byte]

/-- Whatever byte of a text is taken for the first of a character, the character is in the text. -/
theorem pos_add_width_le (hpos : pos < source.size) :
    pos + Utf8.width source.text.toByteArray[pos] ≤ source.size := by
  by_cases hvalid : (String.Pos.Raw.mk pos).IsValid source.text
  · let here : source.text.Pos := source.text.pos ⟨pos⟩ hvalid
    have hend : here ≠ source.text.endPos := by
      intro heq
      have hlast : pos = source.size := congrArg (fun last => last.offset.byteIdx) heq
      omega
    have hnext : (here.next hend).offset.byteIdx ≤ source.size :=
      (here.next hend).isValid.le_utf8ByteSize
    rw [here.byteIdx_offset_next hend, ← width_byte hend, ← Source.byte_pos hend hpos] at hnext
    exact hnext
  · rw [Utf8.width_of_not_isUTF8FirstByte (Source.not_isUTF8FirstByte_of_not_isValid hpos hvalid)]
    exact hpos

theorem charEnd_of_lt (hpos : pos < source.size) :
    (Cursor.mk source pos).charEnd source.text.toByteArray[pos] =
      .ok (pos + Utf8.width source.text.toByteArray[pos]) := by
  have hwidth := pos_add_width_le hpos
  rw [charEnd, checkedAdd_of_lt (Nat.lt_of_le_of_lt hwidth source.size_lt_offsetLimit)]
  exact congrArg Except.ok (Nat.min_eq_left hwidth)

/-! ## In front of a character -/

theorem charEnd_pos {here : source.text.Pos} (hend : here ≠ source.text.endPos) :
    (Cursor.mk source here.offset.byteIdx).charEnd (here.byte hend) =
      .ok (here.next hend).offset.byteIdx := by
  have hlt : here.offset.byteIdx < source.size := here.byteIdx_lt_utf8ByteSize hend
  rw [← Source.byte_pos hend hlt, charEnd_of_lt hlt, Source.byte_pos hend hlt, width_byte hend,
    here.byteIdx_offset_next hend]

theorem next_pos {here : source.text.Pos} (hend : here ≠ source.text.endPos) :
    (Cursor.mk source here.offset.byteIdx).next =
      .ok ⟨source, (here.next hend).offset.byteIdx⟩ := by
  have hlt : here.offset.byteIdx < source.size := here.byteIdx_lt_utf8ByteSize hend
  exact (next_eq_ok_iff (atEnd_eq_ok_false_iff.mpr hlt)).mpr
    ⟨here.byte hend, _, Source.byteAt_pos hend, charEnd_pos hend, rfl⟩

/-- A one-byte encoding is the character itself. -/
theorem get_eq_ofUInt8_byte {text : String} {here : text.Pos} (hend : here ≠ text.endPos)
    (hsize : (here.get hend).utf8Size = 1) : here.get hend = Char.ofUInt8 (here.byte hend) := by
  have hlt : here.offset.byteIdx < text.toByteArray.size := here.byteIdx_lt_utf8ByteSize hend
  have hencode := here.utf8Encode_get_eq_extract hend
  rw [hsize, ByteArray.extract_add_one hlt, Source.byte_pos hend hlt, List.utf8Encode_singleton,
    String.utf8EncodeChar_eq_singleton hsize] at hencode
  have hbyte : (here.get hend).val.toUInt8 = here.byte hend := by
    have hlist := congrArg (fun bytes => bytes.data.toList) hencode
    simpa using hlist
  have hval : (here.get hend).val.toNat ≤ 127 := Char.utf8Size_eq_one_iff.mp hsize
  apply Char.ext
  apply UInt32.toNat_inj.mp
  have hof : (Char.ofUInt8 (here.get hend).val.toUInt8).val.toNat =
      (here.get hend).val.toUInt8.toUInt32.toNat := rfl
  rw [← hbyte, hof, UInt8.toNat_toUInt32, UInt32.toNat_toUInt8]
  omega

theorem char_pos {here : source.text.Pos} (hend : here ≠ source.text.endPos) :
    (Cursor.mk source here.offset.byteIdx).char = .ok (here.get hend) := by
  have hbyte : (Cursor.mk source here.offset.byteIdx).byte = .ok (here.byte hend) :=
    Source.byteAt_pos hend
  have hwidth := width_byte hend
  rw [char, hbyte]
  simp only [bind, Except.bind, pure, Except.pure]
  split
  · next hascii =>
    have hone : (here.get hend).utf8Size = 1 := by
      rw [← hwidth]
      exact if_pos (UInt8.lt_trans hascii (by decide))
    rw [get_eq_ofUInt8_byte hend hone]
  · rw [charEnd_pos hend]
    have hnext := here.byteIdx_offset_next hend
    have hle : (here.next hend).offset.byteIdx ≤ source.size :=
      (here.next hend).isValid.le_utf8ByteSize
    have hencode := here.utf8Encode_get_eq_extract hend
    have hfirst := Utf8.firstChar?_toByteArray (String.ofList [here.get hend])
    rw [String.toByteArray_ofList, hencode, ← hnext, ← source.extract_buffer _ hle,
      String.toList_ofList] at hfirst
    simp only [hfirst]
    rfl

theorem char_of_restAt {char : Char} (h : source.RestAt pos (char :: rest)) :
    (Cursor.mk source pos).char = .ok char := by
  obtain ⟨here, hend, rfl, rfl⟩ := h.exists_pos
  exact char_pos hend

theorem next_of_restAt {char : Char} (h : source.RestAt pos (char :: rest)) :
    (Cursor.mk source pos).next = .ok ⟨source, pos + char.utf8Size⟩ := by
  obtain ⟨here, hend, rfl, rfl⟩ := h.exists_pos
  rw [next_pos hend, here.byteIdx_offset_next hend]

theorem atEnd_of_restAt {char : Char} (h : source.RestAt pos (char :: rest)) :
    (Cursor.mk source pos).atEnd = .ok false := by
  obtain ⟨here, hend, rfl, -⟩ := h.exists_pos
  exact atEnd_eq_ok_false_iff.mpr (here.byteIdx_lt_utf8ByteSize hend)

/-! ## Inside a character -/

/-- A byte below the range of continuation bytes starts a character. -/
theorem isUTF8FirstByte_of_lt {byte : UInt8} (h : byte < 0x80) : byte.IsUTF8FirstByte := by
  have hall : ∀ n : Fin 256, UInt8.ofFin n < 0x80 → (UInt8.ofFin n).IsUTF8FirstByte := by
    decide +kernel
  exact hall byte.toFin h

section Inside

variable (hpos : pos < source.size) (hvalid : ¬ (String.Pos.Raw.mk pos).IsValid source.text)

include hpos hvalid

theorem charEnd_of_not_isValid :
    (Cursor.mk source pos).charEnd (source.text.toByteArray[pos]) = .ok (pos + 1) := by
  have hfirst := Source.not_isUTF8FirstByte_of_not_isValid hpos hvalid
  rw [charEnd_of_lt hpos, Utf8.width_of_not_isUTF8FirstByte hfirst]

theorem char_of_not_isValid : (Cursor.mk source pos).char = .ok Utf8.replacement := by
  have hbyte : (Cursor.mk source pos).byte = .ok (source.text.toByteArray[pos]) :=
    Source.byteAt_of_lt source hpos
  have hfirst := Source.not_isUTF8FirstByte_of_not_isValid hpos hvalid
  rw [char, hbyte]
  simp only [bind, Except.bind, pure, Except.pure]
  split
  · next hascii => exact absurd (isUTF8FirstByte_of_lt hascii) hfirst
  · have hsize : 0 < (source.text.toByteArray.extract pos (pos + 1)).size := by
      have hsize : source.text.toByteArray.size = source.size := rfl
      rw [ByteArray.size_extract]
      omega
    rw [charEnd_of_not_isValid hpos hvalid]
    simp only [source.extract_buffer pos hpos]
    rw [Utf8.firstChar?_of_not_isUTF8FirstByte hsize (by simpa [ByteArray.getElem_extract])]
    rfl

theorem next_of_not_isValid : (Cursor.mk source pos).next = .ok ⟨source, pos + 1⟩ :=
  (next_eq_ok_iff (atEnd_eq_ok_false_iff.mpr hpos)).mpr
    ⟨_, _, Source.byteAt_of_lt source hpos, charEnd_of_not_isValid hpos hvalid, rfl⟩

end Inside

end Cursor

end AsmBlock
