import AsmBlock.Block.Scan

/-!
# The payload of the plug-in

A parser host keeps one payload for a parse session, saves it after each token
and restores it when it parses again.  A block scan needs nothing from earlier
scans, so the payload holds no state: it saves as no bytes and restores from
any.
-/

namespace AsmBlock

namespace Plugin

/-- What the plug-in carries from one scan to the next, which is nothing. -/
structure Payload where
  deriving DecidableEq, Repr, Inhabited

namespace Payload

/-- The number of bytes a host offers for saving a payload. -/
def bufferSize : Nat := 1024

/-- Saves the payload into a buffer: the number of bytes written, and the
buffer with them. -/
def save (_ : Payload) (buffer : ByteArray) : Nat × ByteArray := (0, buffer)

/-- Restores the payload from saved bytes, whatever they are. -/
def restore (payload : Payload) (_ : ByteArray) : Payload := payload

/-- Looks for a token where the input stands. -/
def scan {σ : Type} [Input σ] (_ : Payload) (valid : TokenFlags) (input : σ) :
    Except Fault (Block.Scan σ) :=
  Block.scan valid input

end Payload

end Plugin

end AsmBlock
