import AsmBlock.Proofs.SourceInput.Order

/-!
# Steps at the end of a text

At the end of its text an input stays where it is, however often it steps.  A step that skips is not
idle for all that: it starts the token at the end and takes an end mark there, so that nothing is
left of the token.  Steps at the end therefore leave an input alone exactly if none of them skips or
the token starts at the end already (`Session.steps_at_end`).
-/

namespace AsmBlock

namespace SourceInput

/-- To start the token at a position twice is to start it there once. -/
@[simp] theorem startHere_startHere (input : SourceInput) :
    input.startHere.startHere = input.startHere := by
  have hmax (mark : Nat) : max input.pos (max input.pos mark) = max input.pos mark := by omega
  have hmark : (input.endMark.map (max input.pos)).map (max input.pos) =
      input.endMark.map (max input.pos) := by
    rw [Option.map_map]
    exact congrArg (Option.map · input.endMark) (funext hmax)
  exact congrArg (fun endMark => { input.startHere with endMark }) hmark

theorem advance_of_atEnd {input : SourceInput} (h : input.cursor.atEnd = .ok true) (skip : Bool) :
    Input.advance skip input = .ok (if skip then input.startHere else input) := by
  have hnext : input.cursor.next = .ok ⟨input.cursor.source, input.pos⟩ := Cursor.next_of_atEnd h
  cases skip with
  | false => exact advance_of_next hnext
  | true => exact advance_skip_of_next hnext

namespace Ordered

variable {source : Source} {input : SourceInput} (h : Ordered source input)

include h

/-- A mark never lies behind the position, so the token's new start takes it along. -/
theorem endMark_startHere :
    input.startHere.endMark = input.endMark.map fun _ => input.pos := by
  refine Option.map_congr ?_
  intro mark hmark
  exact Nat.max_eq_left (h.endMark mark hmark).2

/-- Starting the token anew takes away all of it. -/
theorem token?_startHere : input.startHere.token? =
    input.kind?.map fun kind => ⟨kind, input.pos, input.pos⟩ := by
  have hstop : max (input.startHere.endMark.getD input.pos) input.pos = input.pos := by
    rw [h.endMark_startHere]
    cases input.endMark <;> exact Nat.max_self _
  refine Option.map_congr ?_
  intro kind _
  exact congrArg (Token.mk kind input.pos) hstop

theorem startHere_eq_self_iff : input.startHere = input ↔ input.tokenStart = input.pos := by
  constructor
  · intro hsame
    exact (congrArg SourceInput.tokenStart hsame).symm
  · intro hstart
    have hmark : input.startHere.endMark = input.endMark := by
      rw [h.endMark_startHere]
      cases hmark : input.endMark with
      | none => rfl
      | some mark =>
        -- between the start and the position there is no room for another mark
        have hbounds := h.endMark mark hmark
        have hsame : input.pos = mark := by omega
        exact congrArg some hsame
    calc input.startHere
      _ = { input with tokenStart := input.pos, endMark := input.startHere.endMark } := rfl
      _ = input := by rw [hmark, ← hstart]

end Ordered

/-- One step after the other, each skipping its character or not. -/
def stepCommands (skips : List Bool) : List SourceInput.Command :=
  skips.map fun skip => .call (.advance skip)

namespace Session

theorem step_advance_of_atEnd {session : Session} (h : session.input.cursor.atEnd = .ok true)
    (skip : Bool) : (session.step (.call (.advance skip))).2 =
      { session with input := if skip then session.input.startHere else session.input } := by
  have hcall := Input.perform_advance (advance_of_atEnd h skip)
  have hrun : session.run (.call (.advance skip)) = .ok (.answer .done,
      { session with input := if skip then session.input.startHere else session.input }) := by
    rw [run, hcall]
    rfl
  rw [step, Commands.step_of_ok hrun]

/-- At the end many steps do what one of those that skip does, if there is one. -/
theorem after_steps_of_atEnd {session : Session} (h : session.input.cursor.atEnd = .ok true)
    (skips : List Bool) : session.after (stepCommands skips) =
      { session with
        input := if true ∈ skips then session.input.startHere else session.input } := by
  induction skips generalizing session with
  | nil => rfl
  | cons skip skips ih =>
    have hcons : session.after (stepCommands (skip :: skips)) =
        (session.step (.call (.advance skip))).2.after (stepCommands skips) := rfl
    rw [hcons, step_advance_of_atEnd h]
    cases skip with
    | false => simpa using ih h
    | true =>
      let started : Session := { session with input := session.input.startHere }
      have hstarted : started.input.cursor.atEnd = .ok true := h
      simpa [started] using ih hstarted

/-- What steps at the end of a text make of a session. -/
structure EndSteps (session later : Session) (skips : List Bool) : Prop where
  cursor : later.input.cursor = session.input.cursor
  kind? : later.input.kind? = session.input.kind?
  saved : later.saved = session.saved
  idle : true ∉ skips → later = session
  /-- The token starts where the input stands, and ends there too. -/
  skipped : true ∈ skips →
    later.input.tokenStart = session.input.pos ∧
    later.input.endMark = session.input.endMark.map (fun _ => session.input.pos) ∧
    later.input.token? = session.input.kind?.map fun kind =>
      ⟨kind, session.input.pos, session.input.pos⟩
  unchanged_iff : later = session ↔ true ∉ skips ∨ session.input.tokenStart = session.input.pos

theorem endSteps_startHere {source : Source} {session : Session} {skips : List Bool}
    (h : Ordered source session.input) (hskip : true ∈ skips) :
    EndSteps session { session with input := session.input.startHere } skips where
  cursor := rfl
  kind? := rfl
  saved := rfl
  idle := fun hnot => absurd hskip hnot
  skipped := fun _ => ⟨rfl, h.endMark_startHere, h.token?_startHere⟩
  unchanged_iff := by
    have hsame : { session with input := session.input.startHere } = session ↔
        session.input.startHere = session.input :=
      ⟨fun heq => congrArg Session.input heq, fun heq => by rw [heq]⟩
    rw [hsame, h.startHere_eq_self_iff, or_iff_right (not_not_intro hskip)]

theorem endSteps_refl {session : Session} {skips : List Bool} (hskip : true ∉ skips) :
    EndSteps session session skips where
  cursor := rfl
  kind? := rfl
  saved := rfl
  idle := fun _ => rfl
  skipped := fun h => absurd h hskip
  unchanged_iff := ⟨fun _ => .inl hskip, fun _ => rfl⟩

/-- **Only a skip does anything at the end of a text.**  After any commands that lead to the end,
from any offset of a source, further steps keep the position, the kind and the saved copy.  Steps
that do not skip change nothing.  With a skip among them the token starts at the end, and so does a
mark that was set before, and the token is empty.  So steps change nothing exactly if none of them
skips or the token starts at the end already. -/
theorem steps_at_end (source : Source) (start : Nat) (commands : List SourceInput.Command)
    (skips : List Bool) :
    let session := (Session.start (ofCursor (source.cursor start))).after commands
    session.input.cursor.atEnd = .ok true →
      EndSteps session (session.after (stepCommands skips)) skips := by
  intro session hend
  have hreaches : Reaches (ofCursor (source.cursor start)) session.input :=
    (from_after (from_start _) (within_ofCursor source start) commands).input
  have hordered := (Ordered.ofCursor source start).of_reaches hreaches
  rw [after_steps_of_atEnd hend]
  split
  · next hskip => exact endSteps_startHere hordered hskip
  · next hskip => exact endSteps_refl hskip

/-- Behind an accented letter, with the end marked in front of it. -/
theorem steps_at_end_behind_accent :
    let source := Source.ofText "xé" (by decide)
    let session := (Session.start (ofCursor (source.cursor 0))).after
      [.call (.advance false), .call .markEnd, .call (.recognize .llvmIr), .call (.advance false)]
    let skips := [false, true, false]
    session.input.cursor.atEnd = .ok true ∧ session.input.token? = some ⟨.llvmIr, 0, 1⟩ ∧
      EndSteps session (session.after (stepCommands skips)) skips := by
  intro source session skips
  have hbuffer : session.input.pos < session.input.cursor.source.buffer.size := by decide +kernel
  have hpos : decide (session.input.cursor.source.size ≤ session.input.pos) = true := by
    decide +kernel
  have hend : session.input.cursor.atEnd = .ok true :=
    (Cursor.atEnd_of_lt_size_buffer hbuffer).trans (congrArg Except.ok hpos)
  have htoken : session.input.token? = some ⟨.llvmIr, 0, 1⟩ := by decide +kernel
  exact ⟨hend, htoken, steps_at_end source 0 _ skips hend⟩

/-- A skip at the end of a text moves the token's start behind a character of the token. -/
theorem skip_at_end_empties_token :
    let source := Source.ofText "x" (by decide)
    let session := (Session.start (ofCursor (source.cursor 0))).after
      [.call (.advance false), .call .markEnd, .call (.recognize .llvmIr)]
    let later := session.after [.call (.advance true)]
    session.input.cursor.atEnd = .ok true ∧
      session.input.tokenStart = 0 ∧ later.input.tokenStart = 1 ∧
      session.input.token? = some ⟨.llvmIr, 0, 1⟩ ∧ later.input.token? = some ⟨.llvmIr, 1, 1⟩ := by
  intro source session later
  exact ⟨rfl, by decide +kernel, by decide +kernel, by decide +kernel, by decide +kernel⟩

end Session

end SourceInput

end AsmBlock
