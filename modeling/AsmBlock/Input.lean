import AsmBlock.Fault
import AsmBlock.Token

/-!
# The input of a scan

A scan does not own what it reads.  Its input offers one character of
lookahead, a step forward and a test for the end, and takes note of the token
that is found: where it starts, where it ends and which kind it is.  An input
also tells how much may be left of it, which is why a scan ends.
-/

namespace AsmBlock

/-- What a scan may ask of an input whose state is `σ`. -/
class Input (σ : Type) where
  /-- The character at the current position, NUL at the end of the input. -/
  lookahead : σ → Except Fault Char
  atEnd : σ → Except Fault Bool
  /-- Consumes the lookahead.  A character that is skipped does not belong to
  the token: the token starts behind it. -/
  advance : (skip : Bool) → σ → Except Fault σ
  markEnd : σ → σ
  recognize : Token.Kind → σ → σ
  /-- A bound on the steps to the end of the input. -/
  remaining : σ → Nat
  remaining_advance : ∀ {state next : σ} {skip : Bool}, atEnd state = .ok false →
    advance skip state = .ok next → remaining next < remaining state

namespace Input

/-- The calls of an input, as data. -/
inductive Call where
  | lookahead
  | atEnd
  | advance (skip : Bool)
  | markEnd
  | recognize (kind : Token.Kind)
  deriving DecidableEq, Repr

inductive Answer where
  | done
  | char (value : Char)
  | flag (value : Bool)
  deriving DecidableEq, Repr

def perform {σ : Type} [Input σ] (state : σ) : Call → Except Fault (Answer × σ)
  | .lookahead => do
    let char ← lookahead state
    return (.char char, state)
  | .atEnd => do
    let flag ← atEnd state
    return (.flag flag, state)
  | .advance skip => do
    let next ← advance skip state
    return (.done, next)
  | .markEnd => return (.done, markEnd state)
  | .recognize kind => return (.done, recognize kind state)

end Input

end AsmBlock
