import AsmBlock.Input

/-!
# Recorded inputs

An input together with the calls that changed its state, in the order in which
they were made.  Recording changes no answer: a recorded input is the input
underneath, with a list on the side.
-/

namespace AsmBlock

namespace Input

/-- An input and the state-changing calls made of it so far. -/
structure Recorded (σ : Type) where
  input : σ
  calls : Array Call

namespace Recorded

variable {σ : Type} [Input σ]

def start (input : σ) : Recorded σ := ⟨input, #[]⟩

instance : Input (Recorded σ) where
  lookahead state := Input.lookahead state.input
  atEnd state := Input.atEnd state.input
  advance skip state := do
    let input ← Input.advance skip state.input
    return ⟨input, state.calls.push (.advance skip)⟩
  markEnd state := ⟨Input.markEnd state.input, state.calls.push .markEnd⟩
  recognize kind state := ⟨Input.recognize kind state.input, state.calls.push (.recognize kind)⟩
  remaining state := Input.remaining state.input
  remaining_advance {_ _ _} hend hstep := by
    obtain ⟨input, hinput, hnext⟩ := Fault.bind_eq_ok_iff.mp hstep
    cases hnext
    exact Input.remaining_advance hend hinput

end Recorded

end Input

end AsmBlock
