import AsmBlock.Commands
import AsmBlock.Plugin

/-!
# Plug-in sessions

A session is a parser host and the payload it holds.  Its commands are the
entry points of the plug-in, the calls that a scan makes of the host, and what
the host does on its own.  A command that faults leaves the session as it was.
-/

namespace AsmBlock

namespace Plugin

inductive Command where
  | create
  | destroy
  | save (buffer : Option ByteArray)
  | restore (buffer : Option ByteArray) (length : Nat)
  | scan (valid : TokenFlags)
  /-- Scans with no input passed. -/
  | scanWithoutInput (valid : TokenFlags)
  /-- Scans with no flags passed. -/
  | scanWithoutFlags
  | call (call : Input.Call)
  | recognized
  /-- Scans the host directly, without the plug-in. -/
  | scanHost (valid : TokenFlags)
  | setLookahead (unit : Int32)
  | setSymbol (symbol : UInt16)
  | seek (pos : Nat)

inductive Reply where
  | done
  | created (present : Bool)
  /-- The number of bytes written, and whether the buffer is as it was. -/
  | saved (written : Nat) (unchanged : Bool)
  | scanned (found : Bool) (events : Array Log.Event)
  | answer (value : Input.Answer)
  | kind (value : Except SymbolError Token.Kind)

structure Session where
  payload : Option Payload
  host : Host

namespace Session

/-- A session starts without a payload. -/
def start (host : Host) : Session := ⟨none, host⟩

/-- The session with an empty list of calls. -/
def clearCalls (session : Session) : Session :=
  { session with host := { session.host with calls := #[] } }

/-- Calls the scan of the plug-in.  A host that was not passed is unchanged. -/
def scan (session : Session) (input : Option Host) (flags : Option TokenFlags) :
    Except Fault (Reply × Session) := do
  let scan ← Plugin.scan session.payload input flags
  return (.scanned scan.found scan.events,
    { session with host := scan.input.getD session.host })

def run (session : Session) : Command → Except Fault (Reply × Session)
  | .create => return (.created create.isSome, { session with payload := create })
  | .destroy => return (.done, { session with payload := destroy session.payload })
  | .save buffer =>
    let (written, after) := save session.payload buffer
    return (.saved written (after == buffer), session)
  | .restore buffer length =>
    return (.done, { session with payload := restore session.payload buffer length })
  | .scan valid => session.scan (some session.host) (some valid)
  | .scanWithoutInput valid => session.scan none (some valid)
  | .scanWithoutFlags => session.scan (some session.host) none
  | .call call => do
    let (answer, host) ← Input.perform session.host call
    return (.answer answer, { session with host })
  | .recognized => return (.kind session.host.recognized, session)
  | .scanHost valid => do
    let scan ← Block.scan valid session.host
    return (.scanned scan.found scan.events, { session with host := scan.input })
  | .setLookahead unit =>
    return (.done, { session with host := { session.host with lookahead := unit } })
  | .setSymbol symbol =>
    return (.done, { session with host := { session.host with symbol := symbol } })
  | .seek pos => return (.done, { session with host := session.host.seek pos })

/-- Runs one command, with the list of calls starting empty. -/
def step (session : Session) (command : Command) : Except Fault Reply × Session :=
  Commands.step run session.clearCalls command

def after (session : Session) (commands : List Command) : Session :=
  Commands.after step session commands

end Session

end Plugin

end AsmBlock
