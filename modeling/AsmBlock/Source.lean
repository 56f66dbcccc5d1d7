import AsmBlock.Fault

/-!
# Source texts

A source keeps the bytes of its text followed by zero bytes, so that the byte
at the end of the text can be read like any other.  The padding fills the
buffer up to whole blocks and is never empty.  The main statements give every
byte of the buffer, and tell from a position what reading there yields.
-/

namespace AsmBlock

def blockSize : Nat := 64

/-- The size of a buffer that holds `size` bytes and at least one zero byte
behind them. -/
def paddedSize (size : Nat) : Nat := (size / blockSize + 1) * blockSize

theorem lt_paddedSize (size : Nat) : size < paddedSize size := by
  simp only [paddedSize, blockSize]
  omega

/-- The bytes followed by zero bytes up to the padded size. -/
def padded (bytes : ByteArray) : ByteArray :=
  bytes ++ ⟨Array.replicate (paddedSize bytes.size - bytes.size) 0⟩

@[simp] theorem size_padded (bytes : ByteArray) :
    (padded bytes).size = paddedSize bytes.size := by
  have hzeros : (ByteArray.mk (Array.replicate (paddedSize bytes.size - bytes.size) 0)).size =
      paddedSize bytes.size - bytes.size := Array.size_replicate
  have hlt := lt_paddedSize bytes.size
  rw [padded, ByteArray.size_append, hzeros]
  omega

theorem padded_getElem_of_lt (bytes : ByteArray) {pos : Nat} (h : pos < bytes.size)
    (hpos : pos < (padded bytes).size) : (padded bytes)[pos] = bytes[pos] :=
  ByteArray.getElem_append_left h

theorem padded_getElem_of_le (bytes : ByteArray) {pos : Nat} (h : bytes.size ≤ pos)
    (hpos : pos < (padded bytes).size) : (padded bytes)[pos] = 0 := by
  refine (ByteArray.getElem_append_right h).trans ?_
  exact Array.getElem_replicate _

/-- A text whose offsets fit 32 bits, together with its padded bytes. -/
structure Source where
  text : String
  fits : text.utf8ByteSize < offsetLimit
  buffer : ByteArray
  buffer_eq : buffer = padded text.toByteArray

namespace Source

def ofText (text : String) (fits : text.utf8ByteSize < offsetLimit) : Source :=
  ⟨text, fits, padded text.toByteArray, rfl⟩

/-- Lays out a text, unless it is too long. -/
def ofText? (text : String) : Option Source :=
  if fits : text.utf8ByteSize < offsetLimit then some (ofText text fits) else none

/-- The size of the text in bytes, its padding left out. -/
def size (source : Source) : Nat := source.text.utf8ByteSize

def isEmpty (source : Source) : Bool := source.size == 0

/-- The bytes of the text, read back from the buffer. -/
def bytes (source : Source) : ByteArray := source.buffer.extract 0 source.size

def byteAt (source : Source) (pos : Nat) : Except Fault UInt8 :=
  if h : pos < source.buffer.size then .ok source.buffer[pos]
  else .error (.outOfBounds source.buffer.size pos)

/-- The text between two byte offsets.  It is empty when the offsets are out of
order, lie behind the text, or cut through a character. -/
def slice (source : Source) (start stop : Nat) : String :=
  if start ≤ stop ∧ stop ≤ source.size then
    (String.fromUTF8? (source.buffer.extract start stop)).getD ""
  else ""

/-! ## The layout of the buffer -/

@[simp] theorem text_ofText (text : String) (fits : text.utf8ByteSize < offsetLimit) :
    (ofText text fits).text = text := rfl

theorem size_lt_offsetLimit (source : Source) : source.size < offsetLimit :=
  source.fits

theorem size_toByteArray (source : Source) : source.text.toByteArray.size = source.size := rfl

theorem size_buffer (source : Source) : source.buffer.size = paddedSize source.size := by
  rw [source.buffer_eq, size_padded, size_toByteArray]

theorem size_lt_size_buffer (source : Source) : source.size < source.buffer.size := by
  rw [size_buffer]
  exact lt_paddedSize source.size

theorem bytes_eq (source : Source) : source.bytes = source.text.toByteArray := by
  rw [bytes, source.buffer_eq, padded]
  exact ByteArray.extract_append_eq_left rfl

/-! ## Reading at a position -/

theorem byteAt_of_lt (source : Source) {pos : Nat} (h : pos < source.size) :
    source.byteAt pos = .ok source.text.toByteArray[pos] := by
  have hbuffer : pos < source.buffer.size := Nat.lt_trans h source.size_lt_size_buffer
  rw [byteAt, dif_pos hbuffer]
  congr 1
  rw [← padded_getElem_of_lt source.text.toByteArray h (source.buffer_eq ▸ hbuffer)]
  congr 1
  exact source.buffer_eq

theorem byteAt_of_le (source : Source) {pos : Nat} (h : source.size ≤ pos)
    (hbuffer : pos < source.buffer.size) : source.byteAt pos = .ok 0 := by
  rw [byteAt, dif_pos hbuffer]
  congr 1
  rw [← padded_getElem_of_le source.text.toByteArray h (source.buffer_eq ▸ hbuffer)]
  congr 1
  exact source.buffer_eq

theorem byteAt_of_size_buffer_le (source : Source) {pos : Nat} (h : source.buffer.size ≤ pos) :
    source.byteAt pos = .error (.outOfBounds source.buffer.size pos) := by
  rw [byteAt, dif_neg (Nat.not_lt.mpr h)]

end Source

end AsmBlock
