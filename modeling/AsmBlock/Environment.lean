import AsmBlock.Log.Filter
import AsmBlock.Plugin

/-!
# The environment of a scan

A scan runs where a filter for the log may be set and one logger serves all.
The logger may be set up at any time, and making a plug-in payload sets it up
as well.  The lines that are written are those of the events of a scan that the
filter admits.  What filters admit is given from outside; unless it is, they are
filters of directives.
-/

namespace AsmBlock

/-- Where a scan runs, as far as its log goes. -/
structure Environment where
  setting : Option String
  logger : Log.Logger
  deriving DecidableEq, Repr

namespace Environment

/-- An environment in which the logger was not set up. -/
def fresh (setting : Option String) : Environment := ⟨setting, .fresh⟩

def setUpLog (environment : Environment) : Environment :=
  { environment with logger := environment.logger.setUp environment.setting }

/-- An environment in which the logger was set up `count` times. -/
def start (setting : Option String) (count : Nat) : Environment :=
  count.repeat setUpLog (fresh setting)

/-- Makes a plug-in payload, which sets the logger up. -/
def createPayload (environment : Environment) : Option Plugin.Payload × Environment :=
  (Plugin.create, environment.setUpLog)

/-- The lines written for a scan of a source. -/
def scanSource (environment : Environment) (source : Source) (start : Nat) (valid : TokenFlags)
    (admits : Log.Admission := Log.Filter.admission) : Except Fault (List String) := do
  let scan ← Block.scan valid (SourceInput.ofCursor (source.cursor start))
  return environment.logger.lines admits scan.events

/-- The lines written for a payload that is made and used for one scan. -/
def scanHost (environment : Environment) (host : Host) (valid : TokenFlags)
    (admits : Log.Admission := Log.Filter.admission) : Except Fault (List String) := do
  let (payload, environment) := environment.createPayload
  let scan ← Plugin.scan payload (some host) (some valid)
  return environment.logger.lines admits scan.events

end Environment

end AsmBlock
