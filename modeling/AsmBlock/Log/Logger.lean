import AsmBlock.Log.Event

/-!
# The logger

A process has one logger.  It is set up once, with the text of a filter that may
or may not be set; later attempts change nothing.  A logger that was set up
without a filter, or not at all, writes nothing.  The logger keeps the text and
does not read it: what the filter admits is asked for elsewhere.
-/

namespace AsmBlock

namespace Log

/-- What filters admit: the text of a filter, the target of an event and its
level tell whether the event is written. -/
abbrev Admission := String → String → Level → Bool

structure Logger where
  ready : Bool
  /-- The text of the filter it was set up with, if there was one. -/
  filter? : Option String
  deriving DecidableEq, Repr

namespace Logger

def fresh : Logger := ⟨false, none⟩

/-- Sets the logger up, unless that was done before. -/
def setUp (logger : Logger) (setting : Option String) : Logger :=
  if logger.ready then logger else ⟨true, setting⟩

def allows (logger : Logger) (admits : Admission) (event : Event) : Bool :=
  logger.filter?.any fun text => admits text event.target event.level

def lines (logger : Logger) (admits : Admission) (events : Array Event) : List String :=
  (events.toList.filter (logger.allows admits)).map Event.line

end Logger

end Log

end AsmBlock
