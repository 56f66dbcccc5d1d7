import AsmBlock.Cursor
import AsmBlock.Input

/-!
# Sources as inputs

A cursor over a source is the input of a scan once it also keeps where the
token starts, where its end was marked and which kind was recognized.  The main
statement is the instance of `Input`: a step before the end of the text leaves
less of it.
-/

namespace AsmBlock

/-- A cursor and what is known of the token around it. -/
structure SourceInput where
  cursor : Cursor
  tokenStart : Nat
  /-- The offset of the end mark, if one was set. -/
  endMark : Option Nat
  kind? : Option Token.Kind

namespace SourceInput

def ofCursor (cursor : Cursor) : SourceInput := ⟨cursor, cursor.pos, none, none⟩

def pos (input : SourceInput) : Nat := input.cursor.pos

/-- Starts the next token where the input stands. -/
def restart (input : SourceInput) : SourceInput := ofCursor input.cursor

/-- Moves the token's start to the current position, and an end mark that lies
before it along with it: what was skipped cannot be part of the token. -/
def startHere (input : SourceInput) : SourceInput :=
  { input with
    tokenStart := input.pos
    endMark := input.endMark.map (max input.pos) }

/-- Consumes a character.  At the end of the text the position stays, but a
skip still moves the token's start to it. -/
def advance (skip : Bool) (input : SourceInput) : Except Fault SourceInput := do
  let cursor ← input.cursor.next
  let input := { input with cursor }
  return if skip then input.startHere else input

/-- The token that was recognized.  Without an end mark it ends at the current position,
and it never ends before its start. -/
def token? (input : SourceInput) : Option Token :=
  input.kind?.map fun kind =>
    { kind
      start := input.tokenStart
      stop := max (input.endMark.getD input.pos) input.tokenStart }

def remaining (input : SourceInput) : Nat := input.cursor.source.size - input.pos

instance : Input SourceInput where
  lookahead input := input.cursor.char
  atEnd input := input.cursor.atEnd
  advance := advance
  markEnd input := { input with endMark := some input.pos }
  recognize kind input := { input with kind? := some kind }
  remaining := remaining
  remaining_advance {input next skip} hend hstep := by
    obtain ⟨cursor, hcursor, hnext⟩ := Fault.bind_eq_ok_iff.mp hstep
    have hpos := Cursor.atEnd_eq_ok_false_iff.mp hend
    obtain ⟨hsource, hlt, -⟩ := Cursor.next_progress hcursor hpos
    have hnext' : next.cursor = cursor := by
      cases skip <;> cases hnext <;> rfl
    simp only [remaining, pos, hnext', hsource]
    omega

end SourceInput

end AsmBlock
