import AsmBlock.Cursor

/-!
# The layout of a source

The buffer of a source is as large as whole blocks can be that leave room behind the text, so a zero
byte always stands behind it.  The text may hold zero bytes as well, also as its last ones, and yet
the end is told by the position alone (`Source.layout_tells_end`).  Sizes are rounded up by clearing
the low bits of a word (`toNat_maskedSize`).
-/

namespace AsmBlock

/-! ## Whole blocks -/

theorem dvd_paddedSize (size : Nat) : blockSize ∣ paddedSize size := Nat.dvd_mul_left _ _

/-- No smaller number of whole blocks leaves room behind `size` bytes. -/
theorem paddedSize_le {size bound : Nat} (hblocks : blockSize ∣ bound) (hlt : size < bound) :
    paddedSize size ≤ bound := by
  obtain ⟨blocks, rfl⟩ := hblocks
  have hblocks : size / blockSize < blocks := Nat.div_lt_of_lt_mul hlt
  rw [paddedSize, Nat.mul_comm]
  exact Nat.mul_le_mul_left blockSize hblocks

/-- The padded size as a word is rounded: by a block less one byte upwards, and down again to whole
blocks by clearing the low bits. -/
def maskedSize (size : UInt64) : UInt64 := (size + 1 + 64 - 1) &&& ~~~(64 - 1)

/-- The bits that a mask clears and those that it keeps make up the word. -/
theorem toNat_and_not_add (word mask : UInt64) :
    (word &&& ~~~mask).toNat + (word &&& mask).toNat = word.toNat := by
  have hapart : (word.toBitVec &&& ~~~mask.toBitVec) &&& (word.toBitVec &&& mask.toBitVec) = 0 := by
    ext i hi
    cases hword : word.toBitVec[i] <;> cases hmask : mask.toBitVec[i] <;> simp [hword, hmask]
  have hjoined : (word.toBitVec &&& ~~~mask.toBitVec) ||| (word.toBitVec &&& mask.toBitVec) =
      word.toBitVec := by
    ext i hi
    cases hword : word.toBitVec[i] <;> cases hmask : mask.toBitVec[i] <;> simp [hword, hmask]
  have hsum := BitVec.toNat_add_of_and_eq_zero hapart
  rw [BitVec.add_eq_or_of_and_eq_zero _ _ hapart, hjoined] at hsum
  exact hsum.symm

/-- On sizes that are offsets the word is the padded size. -/
theorem toNat_maskedSize {size : Nat} (h : size < offsetLimit) :
    (maskedSize (UInt64.ofNat size)).toNat = paddedSize size := by
  have hlimit : size < 4294967296 := h
  have hword : (UInt64.ofNat size).toNat = size := by
    apply UInt64.toNat_ofNat_of_lt'
    exact Nat.lt_trans hlimit (by decide)
  have hraised : (UInt64.ofNat size + 1 + 64 - 1).toNat = size + 64 := by
    simp only [UInt64.toNat_sub, UInt64.toNat_add, hword, UInt64.reduceToNat]
    omega
  have hlow : ((UInt64.ofNat size + 1 + 64 - 1) &&& (64 - 1)).toNat = (size + 64) % 64 := by
    rw [UInt64.toNat_and, hraised]
    exact Nat.and_two_pow_sub_one_eq_mod (size + 64) 6
  have hparts := toNat_and_not_add (UInt64.ofNat size + 1 + 64 - 1) (64 - 1)
  rw [hraised, hlow] at hparts
  rw [maskedSize, paddedSize, blockSize]
  omega

/-! ## The bytes of the buffer -/

namespace Source

variable (source : Source)

theorem getElem?_buffer_of_lt {pos : Nat} (h : pos < source.size) :
    source.buffer[pos]? = source.text.toByteArray[pos]? := by
  have hbuffer : pos < source.buffer.size := Nat.lt_trans h source.size_lt_size_buffer
  have hbyte := source.byteAt_of_lt h
  rw [byteAt, dif_pos hbuffer] at hbyte
  rw [getElem?_pos source.buffer pos hbuffer, Except.ok.inj hbyte,
    getElem?_pos source.text.toByteArray pos h]

theorem getElem?_buffer_of_le {pos : Nat} (h : source.size ≤ pos)
    (hbuffer : pos < source.buffer.size) : source.buffer[pos]? = some 0 := by
  have hbyte := source.byteAt_of_le h hbuffer
  rw [byteAt, dif_pos hbuffer] at hbyte
  rw [getElem?_pos source.buffer pos hbuffer, Except.ok.inj hbyte]

/-- A cursor at an offset is a cursor moved there from the start, or to the end of a shorter
text. -/
theorem advanceBy_startCursor (start : Nat) :
    source.startCursor.advanceBy (min start source.size) = .ok (source.cursor start) := by
  have hlimit : 0 + min start source.size < offsetLimit :=
    Nat.lt_of_le_of_lt (by omega) source.size_lt_offsetLimit
  rw [Cursor.advanceBy, startCursor, checkedAdd_of_lt hlimit, Nat.zero_add]
  rfl

theorem atEnd_cursor (start : Nat) :
    (source.cursor start).atEnd = .ok (decide (source.size ≤ start)) := by
  have hpos : (source.cursor start).pos < (source.cursor start).source.buffer.size :=
    Nat.lt_of_le_of_lt (Nat.min_le_right _ _) source.size_lt_size_buffer
  rw [Cursor.atEnd_of_lt_size_buffer hpos]
  refine congrArg Except.ok (decide_eq_decide.mpr ?_)
  exact (Nat.le_min.trans (and_iff_left (Nat.le_refl _)))

/-- **The layout of a source tells its end.**  Whatever characters a text has, its buffer is the
least number of blocks of 64 bytes that is larger than the text, it holds the bytes of the text and
zero bytes behind them, and a cursor that can read is at the end exactly if its position is not
within the text.  A cursor at an offset stands there, or at the end of a shorter text. -/
theorem layout_tells_end (text : String) (fits : text.utf8ByteSize < offsetLimit) :
    let source := ofText text fits
    (64 ∣ source.buffer.size ∧ source.size < source.buffer.size ∧
      ∀ bound, 64 ∣ bound → source.size < bound → source.buffer.size ≤ bound) ∧
    (maskedSize (UInt64.ofNat source.size)).toNat = source.buffer.size ∧
    source.bytes = text.toByteArray ∧
    (∀ pos < source.size, source.buffer[pos]? = text.toByteArray[pos]?) ∧
    (∀ pos, source.size ≤ pos → pos < source.buffer.size → source.buffer[pos]? = some 0) ∧
    (∀ cursor : Cursor, cursor.source = source → cursor.pos < source.buffer.size →
      cursor.atEnd = .ok (decide (source.size ≤ cursor.pos))) ∧
    ∀ start, source.startCursor.advanceBy (min start source.size) = .ok (source.cursor start) ∧
      (source.cursor start).pos = min start source.size ∧
      (source.cursor start).atEnd = .ok (decide (source.size ≤ start)) := by
  intro source
  have hsize : source.buffer.size = paddedSize source.size := source.size_buffer
  refine ⟨⟨?_, source.size_lt_size_buffer, ?_⟩, ?_, source.bytes_eq, ?_, ?_, ?_, ?_⟩
  · rw [hsize]
    exact dvd_paddedSize source.size
  · intro bound hblocks hlt
    rw [hsize]
    exact paddedSize_le hblocks hlt
  · rw [hsize]
    exact toNat_maskedSize source.size_lt_offsetLimit
  · intro pos hpos
    exact source.getElem?_buffer_of_lt hpos
  · intro pos hle hbuffer
    exact source.getElem?_buffer_of_le hle hbuffer
  · rintro cursor hsource hpos
    rw [← hsource] at hpos ⊢
    exact Cursor.atEnd_of_lt_size_buffer hpos
  · intro start
    exact ⟨source.advanceBy_startCursor start, rfl, source.atEnd_cursor start⟩

/-- A text that fills a block with zero bytes, which are none of its end. -/
theorem layout_tells_end_of_zeros :
    let text := String.ofList (List.replicate 64 '\x00')
    ∃ fits : text.utf8ByteSize < offsetLimit,
      let source := ofText text fits
      (∀ bound, 64 ∣ bound → 64 < bound → source.buffer.size ≤ bound) ∧
      source.buffer.size = 128 ∧
      (∀ pos < 64, source.buffer[pos]? = text.toByteArray[pos]?) ∧
      (∀ pos, 64 ≤ pos → pos < 128 → source.buffer[pos]? = some 0) ∧
      (∀ cursor : Cursor, cursor.source = source → cursor.pos < 128 →
        cursor.atEnd = .ok (decide (64 ≤ cursor.pos))) ∧
      (source.cursor 63).atEnd = .ok false ∧ (source.cursor 64).atEnd = .ok true := by
  intro text
  have fits : text.utf8ByteSize < offsetLimit := by decide
  have hsize : (ofText text fits).size = 64 := rfl
  have hbuffer : (ofText text fits).buffer.size = 128 := by
    rw [size_buffer, hsize]
    rfl
  obtain ⟨⟨-, -, hleast⟩, -, -, htext, hpadding, hend, hcursor⟩ := layout_tells_end text fits
  rw [hsize] at hleast htext hpadding hend hcursor
  rw [hbuffer] at hpadding hend
  exact ⟨fits, hleast, hbuffer, htext, hpadding, hend, (hcursor 63).2.2, (hcursor 64).2.2⟩

end Source

end AsmBlock
