import AsmBlock.Block.Scan
import AsmBlock.Commands

/-!
# Sessions over a source

A session drives one source input by commands: the calls of an input, whole
scans, a look at the token, and going back to an input saved before.  A command
that faults leaves the session as it was.
-/

namespace AsmBlock

namespace SourceInput

inductive Command where
  | call (call : Input.Call)
  | token
  /-- Scans for a block from the current position. -/
  | scan (valid : TokenFlags)
  | save
  | restore
  /-- Starts a new token at the current position. -/
  | restart
  deriving DecidableEq, Repr

inductive Reply where
  | done
  | answer (value : Input.Answer)
  | token (value : Option Token)
  | found (value : Bool)
  /-- The position of a new token and the byte there. -/
  | startedAt (pos : Nat) (byte : UInt8)
  deriving DecidableEq, Repr

/-- An input and the copy it can go back to. -/
structure Session where
  input : SourceInput
  saved : SourceInput

namespace Session

/-- A session starts with a copy of its first input. -/
def start (input : SourceInput) : Session := ⟨input, input⟩

def run (session : Session) : Command → Except Fault (Reply × Session)
  | .call call => do
    let (answer, input) ← Input.perform session.input call
    return (.answer answer, { session with input })
  | .token => return (.token session.input.token?, session)
  | .scan valid => do
    let scan ← Block.scan valid session.input
    return (.found scan.found, { session with input := scan.input })
  | .save => return (.done, { session with saved := session.input })
  | .restore => return (.done, { session with input := session.saved })
  | .restart => do
    let byte ← session.input.cursor.byte
    return (.startedAt session.input.pos byte, { session with input := session.input.restart })

def step (session : Session) (command : Command) : Except Fault Reply × Session :=
  Commands.step run session command

def after (session : Session) (commands : List Command) : Session :=
  Commands.after step session commands

end Session

end SourceInput

end AsmBlock
