import AsmBlock.Commands
import AsmBlock.Cursor

/-!
# Cursor sessions

A session drives one cursor by commands and can go back to a cursor it saved.
A command that faults leaves the session as it was, so that the commands after
it still run.
-/

namespace AsmBlock

namespace Cursor

inductive Command where
  | byte
  | char
  | advanceBy (count : Nat)
  | next
  | atEnd
  | sourceSize
  | slice (start stop : Nat)
  | save
  | restore
  deriving DecidableEq, Repr

inductive Reply where
  | done
  | byte (value : UInt8)
  | char (value : Char)
  | flag (value : Bool)
  | offset (value : Nat)
  | text (value : String)
  deriving DecidableEq, Repr

/-- A cursor and the copy it can go back to. -/
structure Session where
  cursor : Cursor
  saved : Cursor

namespace Session

/-- A session starts with a copy of its first cursor. -/
def start (cursor : Cursor) : Session := ⟨cursor, cursor⟩

def run (session : Session) : Command → Except Fault (Reply × Session)
  | .byte => do
    let byte ← session.cursor.byte
    return (.byte byte, session)
  | .char => do
    let char ← session.cursor.char
    return (.char char, session)
  | .advanceBy count => do
    let cursor ← session.cursor.advanceBy count
    return (.done, { session with cursor })
  | .next => do
    let cursor ← session.cursor.next
    return (.done, { session with cursor })
  | .atEnd => do
    let flag ← session.cursor.atEnd
    return (.flag flag, session)
  | .sourceSize => return (.offset session.cursor.source.size, session)
  | .slice start stop => return (.text (session.cursor.slice start stop), session)
  | .save => return (.done, { session with saved := session.cursor })
  | .restore => return (.done, { session with cursor := session.saved })

def step (session : Session) (command : Command) : Except Fault Reply × Session :=
  Commands.step run session command

def after (session : Session) (commands : List Command) : Session :=
  Commands.after step session commands

end Session

end Cursor

end AsmBlock
