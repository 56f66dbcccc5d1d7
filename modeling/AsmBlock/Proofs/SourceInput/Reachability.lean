import AsmBlock.SourceInput.Session
import AsmBlock.Proofs.Cursor.Faults
import AsmBlock.Proofs.SourceInput.Scanning

/-!
# What becomes of a source input

Whatever is done to a source input comes down to five changes: it moves forward in its text, starts
its token here, marks the end of the token here, records the kind of the token, or starts anew.
`Reaches` says that one input becomes another by such changes.  No command of a session faults, and
every command keeps to them (`Session.exists_run`), so a session only ever holds inputs that its
first input reaches.
-/

namespace AsmBlock

namespace SourceInput

/-- A position at or behind that of the input and within its text.  An input that stands at a
character, or at the end, finds a character or the end there too. -/
structure Forward (input : SourceInput) (pos : Nat) : Prop where
  le : input.pos ≤ pos
  le_size : pos ≤ input.cursor.source.size
  isValid : (String.Pos.Raw.mk input.pos).IsValid input.cursor.source.text →
    (String.Pos.Raw.mk pos).IsValid input.cursor.source.text

/-- One input becomes another by any number of changes. -/
inductive Reaches (first : SourceInput) : SourceInput → Prop where
  | refl : Reaches first first
  | moveTo {input : SourceInput} {pos : Nat} (h : Reaches first input) (hpos : input.Forward pos) :
      Reaches first (input.moveTo pos)
  | startHere {input : SourceInput} (h : Reaches first input) : Reaches first input.startHere
  | markEnd {input : SourceInput} (h : Reaches first input) : Reaches first (Input.markEnd input)
  | recognize {input : SourceInput} (kind : Token.Kind) (h : Reaches first input) :
      Reaches first (Input.recognize kind input)
  | restart {input : SourceInput} (h : Reaches first input) : Reaches first input.restart

/-- The input stands within its text, where no operation faults. -/
def Within (input : SourceInput) : Prop := input.pos ≤ input.cursor.source.size

theorem within_ofCursor (source : Source) (start : Nat) :
    (ofCursor (source.cursor start)).Within :=
  Nat.min_le_right _ _

namespace Reaches

variable {first input : SourceInput}

theorem source_eq (h : Reaches first input) : input.cursor.source = first.cursor.source := by
  induction h with
  | refl => rfl
  | moveTo _ _ ih | startHere _ ih | markEnd _ ih | recognize _ _ ih | restart _ ih => exact ih

theorem within (h : Reaches first input) (hfirst : first.Within) : input.Within := by
  induction h with
  | refl => exact hfirst
  | moveTo _ hpos _ => exact hpos.le_size
  | startHere _ ih | markEnd _ ih | recognize _ _ ih | restart _ ih => exact ih

end Reaches

/-! ## The operations of an input -/

section Operations

variable {input : SourceInput} (h : input.Within)

include h

theorem forward_pos : input.Forward input.pos := ⟨Nat.le_refl _, h, id⟩

/-- An input within its text stands at the end, in front of a character or inside one. -/
theorem standing :
    input.cursor.source.RestAt input.pos [] ∨
    (∃ char rest, input.cursor.source.RestAt input.pos (char :: rest)) ∨
    input.pos < input.cursor.source.size ∧
      ¬ (String.Pos.Raw.mk input.pos).IsValid input.cursor.source.text := by
  by_cases hvalid : (String.Pos.Raw.mk input.pos).IsValid input.cursor.source.text
  · obtain ⟨rest, hrest⟩ := Source.exists_restAt_iff.mpr hvalid
    cases rest with
    | nil => exact .inl hrest
    | cons char rest => exact .inr (.inl ⟨char, rest, hrest⟩)
  · refine .inr (.inr ⟨Nat.lt_of_le_of_ne h ?_, hvalid⟩)
    intro hend
    have hlast := input.cursor.source.restAt_zero.restAt_size
    rw [← hend] at hlast
    exact hvalid hlast.isValid

theorem exists_next : ∃ pos, input.Forward pos ∧
    input.cursor.next = .ok ⟨input.cursor.source, pos⟩ := by
  rcases standing h with hend | ⟨char, rest, hrest⟩ | ⟨hpos, hvalid⟩
  · exact ⟨input.pos, forward_pos h, Cursor.next_of_atEnd (Cursor.atEnd_of_restAt_nil hend)⟩
  · have hbehind := hrest.tail
    have hforward : input.Forward (input.pos + char.utf8Size) :=
      ⟨Nat.le_add_right _ _, hbehind.pos_le, fun _ => hbehind.isValid⟩
    exact ⟨_, hforward, Cursor.next_of_restAt hrest⟩
  · have hforward : input.Forward (input.pos + 1) :=
      ⟨Nat.le_add_right _ _, hpos, fun hhere => absurd hhere hvalid⟩
    exact ⟨_, hforward, Cursor.next_of_not_isValid hpos hvalid⟩

theorem pos_lt_size_buffer : input.pos < input.cursor.source.buffer.size :=
  Nat.lt_of_le_of_lt h input.cursor.source.size_lt_size_buffer

theorem exists_scan (valid : TokenFlags) : ∃ result pos, Block.scan valid input = .ok result ∧
    input.Forward pos ∧ result.input =
      if result.found then Input.markEnd (Input.recognize .llvmIr (input.moveTo pos))
      else input.moveTo pos := by
  rcases valid.contains_eq_false_or with hnot | ⟨flags, rfl⟩
  · exact ⟨_, input.pos, Block.scan_of_not_contains hnot input, forward_pos h, rfl⟩
  · obtain ⟨gap, rest, hahead⟩ := input.cursor.source.exists_ahead h
    have hsplit := hahead.restAt
    rw [← List.take_append_drop (Block.State.start.walk rest).length rest] at hsplit
    have hstop := hsplit.skip
    refine ⟨_, _, Block.scan_of_ahead hahead flags, ⟨by omega, hstop.pos_le, ?_⟩, rfl⟩
    intro _
    exact hstop.isValid

end Operations

/-! ## The commands of a session -/

section Commands

variable {first input : SourceInput} (hinput : Reaches first input) (hfirst : first.Within)

include hinput hfirst

theorem exists_perform (call : Input.Call) : ∃ answer next,
    Input.perform input call = .ok (answer, next) ∧ Reaches first next := by
  have hwithin := hinput.within hfirst
  cases call with
  | lookahead =>
    obtain ⟨char, hchar⟩ := Cursor.exists_char (pos_lt_size_buffer hwithin)
    exact ⟨.char char, input, Input.perform_lookahead hchar, hinput⟩
  | atEnd =>
    have hend : Input.atEnd input = .ok (decide (input.cursor.source.size ≤ input.pos)) :=
      Cursor.atEnd_of_lt_size_buffer (pos_lt_size_buffer hwithin)
    exact ⟨_, input, Input.perform_atEnd hend, hinput⟩
  | advance skip =>
    obtain ⟨pos, hpos, hnext⟩ := exists_next hwithin
    have hmoved := hinput.moveTo hpos
    cases skip with
    | false => exact ⟨_, _, Input.perform_advance (advance_of_next hnext), hmoved⟩
    | true => exact ⟨_, _, Input.perform_advance (advance_skip_of_next hnext), hmoved.startHere⟩
  | markEnd => exact ⟨.done, _, rfl, hinput.markEnd⟩
  | recognize kind => exact ⟨.done, _, rfl, hinput.recognize kind⟩

theorem exists_scan_reaches (valid : TokenFlags) : ∃ result,
    Block.scan valid input = .ok result ∧ Reaches first result.input := by
  obtain ⟨result, pos, hscan, hpos, hresult⟩ := exists_scan (hinput.within hfirst) valid
  have hmoved := hinput.moveTo hpos
  refine ⟨result, hscan, ?_⟩
  rw [hresult]
  split
  · exact (hmoved.recognize .llvmIr).markEnd
  · exact hmoved

end Commands

namespace Session

/-- Both inputs of a session are reached from a first input. -/
structure From (first : SourceInput) (session : Session) : Prop where
  input : Reaches first session.input
  saved : Reaches first session.saved

theorem from_start (input : SourceInput) : From input (start input) := ⟨.refl, .refl⟩

section Run

variable {first : SourceInput} {session : Session} (h : From first session)
  (hfirst : first.Within)

include h hfirst

/-- No command faults, and each keeps to what the first input reaches. -/
theorem exists_run (command : Command) : ∃ reply next,
    session.run command = .ok (reply, next) ∧ From first next := by
  cases command with
  | call call =>
    obtain ⟨answer, input, hperform, hinput⟩ := exists_perform h.input hfirst call
    refine ⟨.answer answer, { session with input }, ?_, hinput, h.saved⟩
    rw [run, hperform]
    rfl
  | token => exact ⟨_, _, rfl, h⟩
  | scan valid =>
    obtain ⟨result, hscan, hinput⟩ := exists_scan_reaches h.input hfirst valid
    refine ⟨.found result.found, { session with input := result.input }, ?_, hinput, h.saved⟩
    rw [run, hscan]
    rfl
  | save => exact ⟨_, _, rfl, h.input, h.input⟩
  | restore => exact ⟨_, _, rfl, h.saved, h.saved⟩
  | restart =>
    obtain ⟨byte, hbyte⟩ := Cursor.exists_byte (pos_lt_size_buffer (h.input.within hfirst))
    refine ⟨.startedAt session.input.pos byte, { session with input := session.input.restart }, ?_,
      h.input.restart, h.saved⟩
    rw [run, hbyte]
    rfl

theorem from_step (command : Command) : From first (session.step command).2 := by
  obtain ⟨reply, next, hrun, hnext⟩ := exists_run h hfirst command
  rw [step, Commands.step_of_ok hrun]
  exact hnext

/-- Any number of commands keep to what the first input reaches. -/
theorem from_after (commands : List Command) : From first (session.after commands) :=
  Commands.after_keeps (From first) (fun _ command hfrom => from_step hfrom hfirst command) h
    commands

end Run

end Session

end SourceInput

end AsmBlock
