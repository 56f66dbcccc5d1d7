import AsmBlock.Host
import AsmBlock.Plugin.Payload

/-!
# The scan as a plug-in

A parser host calls the scan through five entry points.  It passes the payload
that it got from `create`, and may pass nothing where a payload, an input, flags
or a buffer belong; such a call has no effect.  A scan that found a token also
reports what it left in the host's result slot.
-/

namespace AsmBlock

namespace Plugin

def create : Option Payload := some default

/-- Gives a payload back.  No payload is left. -/
def destroy (_ : Option Payload) : Option Payload := none

/-- Saves the payload into a buffer: the number of bytes written, and the
buffer with them. -/
def save (payload : Option Payload) (buffer : Option ByteArray) : Nat × Option ByteArray :=
  match payload, buffer with
  | some payload, some bytes =>
    let (written, bytes) := payload.save bytes
    (written, some bytes)
  | _, _ => (0, buffer)

/-- Restores the payload from the first `length` bytes of a buffer. -/
def restore (payload : Option Payload) (buffer : Option ByteArray) (length : Nat) :
    Option Payload :=
  payload.map fun payload => payload.restore ((buffer.getD .empty).extract 0 length)

/-- What is reported about the result slot after a successful scan. -/
def resultEvent (host : Host) : Log.Event :=
  match host.recognized with
  | .ok kind => .tokenRecognized kind
  | .error error => .symbolUnrecognized error

/-- Scans the host's input.  Only the declared flags are looked at. -/
def scan (payload : Option Payload) (host : Option Host) (valid : Option TokenFlags) :
    Except Fault (Block.Scan (Option Host)) :=
  match payload, host, valid with
  | some payload, some host, some valid => do
    let ⟨found, host, events⟩ ← payload.scan valid.declared host
    let events := if found then events.push (resultEvent host) else events
    return ⟨found, some host, events⟩
  | _, _, _ => .ok ⟨false, host, #[]⟩

end Plugin

end AsmBlock
