import AsmBlock.Proofs.Cursor.Decoding

/-!
# The bytes of a source

A character below 128 is encoded as the one byte with its number, and every other character by bytes
from 128 on.  Behind an offset at which characters are left the bytes of a source are those of these
characters, and the bytes inside a character are from 128 on too.
-/

namespace AsmBlock

namespace Utf8

/-- The bytes in which characters are encoded. -/
def bytes (chars : List Char) : List UInt8 := chars.flatMap String.utf8EncodeChar

@[simp] theorem bytes_cons (char : Char) (chars : List Char) :
    bytes (char :: chars) = String.utf8EncodeChar char ++ bytes chars :=
  List.flatMap_cons

@[simp] theorem bytes_append (front back : List Char) :
    bytes (front ++ back) = bytes front ++ bytes back :=
  List.flatMap_append

theorem length_bytes (chars : List Char) : (bytes chars).length = size chars := by
  induction chars with
  | nil => rfl
  | cons char chars ih =>
    rw [bytes_cons, List.length_append, String.length_utf8EncodeChar, ih, size_cons]

theorem bytes_toList (text : String) : bytes text.toList = text.toByteArray.data.toList := by
  have hencode := congrArg (fun array => array.data.toList) (String.utf8Encode_toList (b := text))
  rw [← hencode]
  simp [bytes, List.utf8Encode]

theorem toUInt8_eq_iff {char other : Char} (hchar : char.utf8Size = 1)
    (hother : other.utf8Size = 1) : char.val.toUInt8 = other.val.toUInt8 ↔ char = other := by
  have hval : char.val.toNat ≤ 127 := Char.utf8Size_eq_one_iff.mp hchar
  have hval' : other.val.toNat ≤ 127 := Char.utf8Size_eq_one_iff.mp hother
  constructor
  · intro h
    have hnat := congrArg UInt8.toNat h
    rw [UInt32.toNat_toUInt8, UInt32.toNat_toUInt8] at hnat
    apply Char.ext
    apply UInt32.toNat_inj.mp
    omega
  · intro h
    rw [h]

/-- No byte of a longer encoding is that of a one-byte character. -/
theorem le_of_mem_utf8EncodeChar {char : Char} {byte : UInt8} (hsize : char.utf8Size ≠ 1)
    (h : byte ∈ String.utf8EncodeChar char) : 0x80 ≤ byte := by
  have hval : ¬ char.val.toNat ≤ 127 := by
    intro hle
    exact hsize (Char.utf8Size_eq_one_iff.mpr hle)
  rw [UInt8.le_iff_toNat_le]
  revert h
  fun_cases String.utf8EncodeChar char with
  | case1 => contradiction
  | case2 value _ _ =>
    intro h
    simp only [List.mem_cons, List.not_mem_nil, or_false] at h
    rcases h with rfl | rfl <;> simp <;> omega
  | case3 value _ _ _ =>
    intro h
    simp only [List.mem_cons, List.not_mem_nil, or_false] at h
    rcases h with rfl | rfl | rfl <;> simp <;> omega
  | case4 value _ _ _ =>
    intro h
    simp only [List.mem_cons, List.not_mem_nil, or_false] at h
    rcases h with rfl | rfl | rfl | rfl <;> simp <;> omega

end Utf8

namespace Source

variable {source : Source} {pos : Nat} {rest : List Char}

/-- The bytes of a source from an offset on. -/
def bytesFrom (source : Source) (pos : Nat) : List UInt8 :=
  source.text.toByteArray.data.toList.drop pos

theorem RestAt.bytesFrom_eq (h : source.RestAt pos rest) :
    source.bytesFrom pos = Utf8.bytes rest := by
  obtain ⟨before, htext, rfl⟩ := h
  rw [bytesFrom, ← Utf8.bytes_toList, htext, Utf8.bytes_append, ← Utf8.length_bytes, List.drop_left]

/-- The byte at an offset inside a character cannot be taken for a character. -/
theorem bytesFrom_of_not_isValid (hpos : pos < source.size)
    (hvalid : ¬ (String.Pos.Raw.mk pos).IsValid source.text) :
    ∃ byte, 0x80 ≤ byte ∧ source.bytesFrom pos = byte :: source.bytesFrom (pos + 1) := by
  have hfirst := not_isUTF8FirstByte_of_not_isValid hpos hvalid
  refine ⟨source.text.toByteArray[pos], ?_, List.drop_eq_getElem_cons hpos⟩
  rw [← UInt8.not_lt]
  intro hlt
  exact hfirst (Cursor.isUTF8FirstByte_of_lt hlt)

end Source

end AsmBlock
