import AsmBlock.Source
import AsmBlock.Utf8

/-!
# Cursors over a source

A cursor is a position in the padded bytes of a source.  It may be advanced by
any number of bytes, so it can stand inside a character, in the padding or
behind the buffer.  Only reading behind the buffer is a fault.  The main
statements give the end-of-input test as a comparison of positions and show
that a character step moves forward and stays within the text.
-/

namespace AsmBlock

structure Cursor where
  source : Source
  pos : Nat

def Source.startCursor (source : Source) : Cursor := ⟨source, 0⟩

/-- A cursor at a byte offset, or at the end of a text that is shorter. -/
def Source.cursor (source : Source) (pos : Nat) : Cursor := ⟨source, min pos source.size⟩

namespace Cursor

def byte (cursor : Cursor) : Except Fault UInt8 := cursor.source.byteAt cursor.pos

/-- Whether the text is used up: the byte is zero and lies behind the text.  A
zero byte within the text is ordinary content. -/
def atEnd (cursor : Cursor) : Except Fault Bool := do
  let byte ← cursor.byte
  return byte == 0 && cursor.source.size ≤ cursor.pos

/-- The offset behind a character that starts at the cursor with `byte`.  No
character reaches behind the text. -/
def charEnd (cursor : Cursor) (byte : UInt8) : Except Fault Nat := do
  let stop ← checkedAdd cursor.pos (Utf8.width byte)
  return min stop cursor.source.size

/-- The character that starts at the cursor: NUL at the end of the text, and
the replacement character where no character starts. -/
def char (cursor : Cursor) : Except Fault Char := do
  let byte ← cursor.byte
  if byte < 0x80 then
    return Char.ofUInt8 byte
  else
    let stop ← cursor.charEnd byte
    return (Utf8.firstChar? (cursor.source.buffer.extract cursor.pos stop)).getD Utf8.replacement

/-- Moves the cursor by `count` bytes, wherever that leads. -/
def advanceBy (cursor : Cursor) (count : Nat) : Except Fault Cursor := do
  let pos ← checkedAdd cursor.pos count
  return { cursor with pos }

/-- Moves the cursor behind the character that starts at it.  At the end of the
text the cursor stays. -/
def next (cursor : Cursor) : Except Fault Cursor := do
  if ← cursor.atEnd then
    return cursor
  else
    let byte ← cursor.byte
    let pos ← cursor.charEnd byte
    return { cursor with pos }

def slice (cursor : Cursor) (start stop : Nat) : String := cursor.source.slice start stop

/-! ## The end of the text -/

theorem atEnd_of_byte {cursor : Cursor} {byte : UInt8} (h : cursor.byte = .ok byte) :
    cursor.atEnd = .ok (byte == 0 && decide (cursor.source.size ≤ cursor.pos)) := by
  rw [atEnd, h]
  rfl

theorem atEnd_of_lt_size_buffer {cursor : Cursor} (h : cursor.pos < cursor.source.buffer.size) :
    cursor.atEnd = .ok (decide (cursor.source.size ≤ cursor.pos)) := by
  by_cases hsize : cursor.source.size ≤ cursor.pos
  · rw [atEnd_of_byte (Source.byteAt_of_le _ hsize h)]
    simp
  · rw [atEnd_of_byte (Source.byteAt_of_lt _ (Nat.lt_of_not_le hsize))]
    simp [hsize]

theorem atEnd_of_size_buffer_le {cursor : Cursor} (h : cursor.source.buffer.size ≤ cursor.pos) :
    cursor.atEnd = .error (.outOfBounds cursor.source.buffer.size cursor.pos) := by
  simp only [atEnd, byte, Source.byteAt_of_size_buffer_le _ h]
  rfl

/-- More input is left exactly at the positions within the text. -/
theorem atEnd_eq_ok_false_iff {cursor : Cursor} :
    cursor.atEnd = .ok false ↔ cursor.pos < cursor.source.size := by
  by_cases h : cursor.pos < cursor.source.buffer.size
  · simp [atEnd_of_lt_size_buffer h]
  · have hle := Nat.le_of_not_lt h
    have hsize := cursor.source.size_lt_size_buffer
    simp only [atEnd_of_size_buffer_le hle, reduceCtorEq, false_iff]
    omega

/-! ## A character step -/

theorem next_of_atEnd {cursor : Cursor} (h : cursor.atEnd = .ok true) :
    cursor.next = .ok cursor := by
  rw [next, h]
  rfl

/-- Before the end of the text a character step leads behind the character. -/
theorem next_eq_ok_iff {cursor behind : Cursor} (h : cursor.atEnd = .ok false) :
    cursor.next = .ok behind ↔
      ∃ byte stop, cursor.byte = .ok byte ∧ cursor.charEnd byte = .ok stop ∧
        behind = { cursor with pos := stop } := by
  have hstep : cursor.next =
      (cursor.byte >>= fun byte => cursor.charEnd byte >>= fun pos =>
        .ok { cursor with pos }) := by
    rw [next, h]
    rfl
  simp only [hstep, Fault.bind_eq_ok_iff, Except.ok.injEq]
  constructor
  · rintro ⟨byte, hbyte, stop, hstop, rfl⟩
    exact ⟨byte, stop, hbyte, hstop, rfl⟩
  · rintro ⟨byte, stop, hbyte, hstop, rfl⟩
    exact ⟨byte, hbyte, stop, hstop, rfl⟩

/-- A character step within the text moves forward, not behind the text, and
keeps to the same text. -/
theorem next_progress {cursor behind : Cursor} (h : cursor.next = .ok behind)
    (hpos : cursor.pos < cursor.source.size) :
    behind.source = cursor.source ∧ cursor.pos < behind.pos ∧
      behind.pos ≤ cursor.source.size := by
  obtain ⟨byte, stop, -, hstop, rfl⟩ :=
    (next_eq_ok_iff (atEnd_eq_ok_false_iff.mpr hpos)).mp h
  obtain ⟨sum, hsum, hmin⟩ := Fault.bind_eq_ok_iff.mp hstop
  obtain ⟨rfl, -⟩ := checkedAdd_eq_ok_iff.mp hsum
  cases hmin
  have hwidth := Utf8.width_pos byte
  refine ⟨rfl, ?_, ?_⟩
  · simp only
    omega
  · simp only
    omega

end Cursor

end AsmBlock
