import AsmBlock.Cursor.Session
import AsmBlock.Proofs.Cursor.Decoding

/-!
# The faults of a cursor

A cursor may stand anywhere, but only two things go wrong: it reads behind the buffer, or is moved
to a position that is no offset.  The sum of a position and a character's width is never at fault,
since no character of a text reaches behind it (`Cursor.pos_add_width_le`).  Hence each command of a
session faults exactly where `Command.faultAt` says, whatever was done before
(`Session.faults_exactly`).
-/

namespace AsmBlock

namespace Cursor

section Reading

variable {cursor : Cursor}

/-- Where the end of a character is computed it lies within the text, so that neither the limit of
offsets nor the end of the text changes it. -/
theorem charEnd_of_byte {byte : UInt8} (hbyte : cursor.byte = .ok byte)
    (h : 0x80 ≤ byte ∨ cursor.atEnd = .ok false) :
    cursor.pos + Utf8.width byte ≤ cursor.source.size ∧
      cursor.charEnd byte = .ok (cursor.pos + Utf8.width byte) := by
  have hpos : cursor.pos < cursor.source.size := by
    rcases h with hwide | hend
    · apply Nat.lt_of_not_le
      intro hle
      -- behind the text all bytes are zero
      by_cases hbuffer : cursor.pos < cursor.source.buffer.size
      · rw [Cursor.byte, Source.byteAt_of_le _ hle hbuffer] at hbyte
        cases hbyte
        exact absurd hwide (by decide)
      · rw [Cursor.byte, Source.byteAt_of_size_buffer_le _ (Nat.le_of_not_lt hbuffer)] at hbyte
        cases hbyte
    · exact atEnd_eq_ok_false_iff.mp hend
  rw [Cursor.byte, Source.byteAt_of_lt _ hpos] at hbyte
  cases hbyte
  exact ⟨pos_add_width_le hpos, charEnd_of_lt hpos⟩

theorem next_of_lt (h : cursor.pos < cursor.source.size) :
    cursor.next = .ok { cursor with
      pos := cursor.pos + Utf8.width cursor.source.text.toByteArray[cursor.pos] } :=
  (next_eq_ok_iff (atEnd_eq_ok_false_iff.mpr h)).mpr
    ⟨_, _, Source.byteAt_of_lt _ h, charEnd_of_lt h, rfl⟩

theorem next_of_le (h : cursor.source.size ≤ cursor.pos)
    (hbuffer : cursor.pos < cursor.source.buffer.size) : cursor.next = .ok cursor := by
  apply next_of_atEnd
  rw [atEnd_of_lt_size_buffer hbuffer, decide_eq_true h]

/-! ## In the buffer and behind it -/

section Within

variable (h : cursor.pos < cursor.source.buffer.size)

include h

theorem exists_byte : ∃ byte, cursor.byte = .ok byte := ⟨_, dif_pos h⟩

theorem exists_char : ∃ char, cursor.char = .ok char := by
  obtain ⟨byte, hbyte⟩ := exists_byte h
  rw [char, hbyte]
  simp only [bind, Except.bind, pure, Except.pure]
  split
  · exact ⟨_, rfl⟩
  · next hascii =>
    rw [(charEnd_of_byte hbyte (.inl (UInt8.not_lt.mp hascii))).2]
    exact ⟨_, rfl⟩

theorem exists_next : ∃ behind, cursor.next = .ok behind := by
  by_cases hpos : cursor.pos < cursor.source.size
  · exact ⟨_, next_of_lt hpos⟩
  · exact ⟨_, next_of_le (Nat.le_of_not_lt hpos) h⟩

end Within

section Behind

variable (h : cursor.source.buffer.size ≤ cursor.pos)

include h

theorem next_of_size_buffer_le :
    cursor.next = .error (.outOfBounds cursor.source.buffer.size cursor.pos) := by
  rw [next, atEnd_of_size_buffer_le h]
  rfl

end Behind

end Reading

/-! ## Sessions -/

namespace Session

/-- Both cursors of a session stand at offsets of a source. -/
structure Over (source : Source) (session : Session) : Prop where
  cursor : session.cursor.source = source ∧ session.cursor.pos < offsetLimit
  saved : session.saved.source = source ∧ session.saved.pos < offsetLimit

section Step

variable {source : Source} {session : Session}

theorem Over.run (h : Over source session) {command : Command} {reply : Reply} {after : Session}
    (hrun : session.run command = .ok (reply, after)) : Over source after := by
  cases command with
  | byte | char | atEnd =>
    obtain ⟨_, -, hafter⟩ := Fault.bind_eq_ok_iff.mp hrun
    cases hafter
    exact h
  | advanceBy count =>
    obtain ⟨cursor, hcursor, hafter⟩ := Fault.bind_eq_ok_iff.mp hrun
    obtain ⟨pos, hpos, hmoved⟩ := Fault.bind_eq_ok_iff.mp hcursor
    obtain ⟨rfl, hlimit⟩ := checkedAdd_eq_ok_iff.mp hpos
    cases hmoved
    cases hafter
    exact ⟨⟨h.cursor.1, hlimit⟩, h.saved⟩
  | next =>
    obtain ⟨cursor, hcursor, hafter⟩ := Fault.bind_eq_ok_iff.mp hrun
    cases hafter
    refine ⟨?_, h.saved⟩
    by_cases hpos : session.cursor.pos < session.cursor.source.size
    · obtain ⟨hsource, -, hle⟩ := next_progress hcursor hpos
      exact ⟨hsource.trans h.cursor.1,
        Nat.lt_of_le_of_lt hle session.cursor.source.size_lt_offsetLimit⟩
    · by_cases hbuffer : session.cursor.pos < session.cursor.source.buffer.size
      · rw [next_of_le (Nat.le_of_not_lt hpos) hbuffer] at hcursor
        cases hcursor
        exact h.cursor
      · rw [next_of_size_buffer_le (Nat.le_of_not_lt hbuffer)] at hcursor
        cases hcursor
  | sourceSize | slice =>
    cases hrun
    exact h
  | save =>
    cases hrun
    exact ⟨h.cursor, h.cursor⟩
  | restore =>
    cases hrun
    exact ⟨h.saved, h.saved⟩

theorem Over.step (h : Over source session) (command : Command) :
    Over source (session.step command).2 :=
  Commands.step_keeps (Over source) h fun _ _ hrun => h.run hrun

theorem Over.after (h : Over source session) (commands : List Command) :
    Over source (session.after commands) :=
  Commands.after_keeps (Over source) (fun _ command hover => hover.step command) h commands

end Step

/-- From inside an accented letter into the padding, where a character step stays, a long one faults
and reading still works. -/
example :
    let source := Source.ofText "é" (by decide)
    let session := (Session.start (source.cursor 1)).after [.next, .advanceBy 60, .next]
    (session.cursor.pos, (session.step (.advanceBy 4294967295)).1, (session.step .char).1) =
      (62, .error .addOverflow, .ok (.char '\x00')) := by
  cbv

end Session

end Cursor

end AsmBlock
