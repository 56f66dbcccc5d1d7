/-!
# UTF-8 widths and decoding

The width of an encoded character is read off its first byte.  Decoding the
first character of a run of bytes fails when the run as a whole is not well
formed.  The main statements say what width a first byte and any other byte
has, and what decoding finds at the bytes of a text.
-/

namespace AsmBlock

namespace Utf8

/-- The number of bytes in a character whose encoding starts with `byte`.
Bytes that start no longer encoding, continuation bytes among them, count as
one byte wide. -/
def width (byte : UInt8) : Nat :=
  if byte < 0xC0 then 1
  else if byte < 0xE0 then 2
  else if byte < 0xF0 then 3
  else if byte < 0xF8 then 4
  else 1

/-- The first character of a run of bytes, when the run is well-formed UTF-8
and not empty. -/
def firstChar? (bytes : ByteArray) : Option Char :=
  (String.fromUTF8? bytes).bind fun text => text.toList.head?

/-- The stand-in for bytes that encode no character. -/
def replacement : Char := '\uFFFD'

/-! ## Widths -/

theorem width_pos (byte : UInt8) : 0 < width byte := by
  unfold width
  repeat' split
  all_goals decide

/-- The width of a byte that starts an encoding is the size of the encoding. -/
theorem width_of_isUTF8FirstByte {byte : UInt8} (h : byte.IsUTF8FirstByte) :
    width byte = byte.utf8ByteSize h := by
  have hall : ∀ n : Fin 256, ∀ h : (UInt8.ofFin n).IsUTF8FirstByte,
      width (UInt8.ofFin n) = (UInt8.ofFin n).utf8ByteSize h := by
    decide +kernel
  exact hall byte.toFin h

theorem width_of_not_isUTF8FirstByte {byte : UInt8} (h : ¬ byte.IsUTF8FirstByte) :
    width byte = 1 := by
  have hall : ∀ n : Fin 256, ¬ (UInt8.ofFin n).IsUTF8FirstByte → width (UInt8.ofFin n) = 1 := by
    decide +kernel
  exact hall byte.toFin h

/-! ## Decoding -/

theorem fromUTF8?_toByteArray (text : String) :
    String.fromUTF8? text.toByteArray = some text := by
  rw [String.fromUTF8?, dif_pos text.isValidUTF8]
  rfl

theorem firstChar?_toByteArray (text : String) :
    firstChar? text.toByteArray = text.toList.head? := by
  rw [firstChar?, fromUTF8?_toByteArray]
  rfl

/-- No character is found where no encoding starts. -/
theorem firstChar?_of_not_isUTF8FirstByte {bytes : ByteArray} (hsize : 0 < bytes.size)
    (h : ¬ bytes[0].IsUTF8FirstByte) : firstChar? bytes = none := by
  have hinvalid : ¬ bytes.IsValidUTF8 := by
    intro hvalid
    exact h (hvalid.isUTF8FirstByte_getElem_zero hsize)
  rw [firstChar?, String.fromUTF8?, dif_neg hinvalid]
  rfl

end Utf8

end AsmBlock
