import AsmBlock.Fault
import AsmBlock.Log.Event

/-!
# The state of a block scan

A scan walks the body of a block and counts braces.  Two constructs hide what
they hold from the count: a string, from a quote to the next quote, and a
comment, from a semicolon to the next newline.  One character is met by one
step, which depends on the class of the character only.
-/

namespace AsmBlock

namespace Block

/-- The classes of characters a scan tells apart. -/
inductive CharClass where
  | quote
  | semicolon
  | newline
  | openBrace
  | closeBrace
  | other
  deriving DecidableEq, Repr

def CharClass.ofChar (char : Char) : CharClass :=
  match char with
  | '"' => .quote
  | ';' => .semicolon
  | '\n' => .newline
  | '{' => .openBrace
  | '}' => .closeBrace
  | _ => .other

/-- What the characters at a position belong to. -/
inductive Context where
  /-- Text in which braces count. -/
  | code
  /-- A string, up to and including the next quote. -/
  | string
  /-- A comment, up to and including the next newline. -/
  | comment
  deriving DecidableEq, Repr

structure State where
  context : Context
  /-- The number of opening braces not yet closed. -/
  depth : Nat
  deriving DecidableEq, Repr

inductive Step where
  /-- The character is the closing brace of the block. -/
  | found
  /-- The character belongs to the body, and the scan goes on behind it. -/
  | next (state : State) (event? : Option Log.Event)
  deriving DecidableEq, Repr

namespace State

/-- A scan starts behind the opening brace of its block. -/
def start : State := ⟨.code, 0⟩

/-- The step a character of the given class makes.  A closing brace that no
opening brace of the body balances is the end of the block. -/
def step (state : State) (char : CharClass) : Except Fault Step :=
  match state.context, char with
  | .code, .quote => .ok (.next ⟨.string, state.depth⟩ none)
  | .code, .semicolon => .ok (.next ⟨.comment, state.depth⟩ none)
  | .code, .openBrace => do
    let depth ← checkedAdd state.depth 1
    return .next ⟨.code, depth⟩ (some (.braceOpened depth))
  | .code, .closeBrace =>
    match state.depth with
    | 0 => .ok .found
    | depth + 1 => .ok (.next ⟨.code, depth⟩ (some (.braceClosed depth)))
  | .string, .quote => .ok (.next ⟨.code, state.depth⟩ none)
  | .comment, .newline => .ok (.next ⟨.code, state.depth⟩ none)
  | _, _ => .ok (.next state none)

/-- What is reported when the input ends in this state. -/
def endEvent (state : State) : Log.Event :=
  match state.context with
  | .code => .inputEnded state.depth
  | .string => .stringUnterminated
  | .comment => .commentUnterminated

/-- The block ends at a closing brace met in the state in which it started. -/
theorem step_eq_ok_found_iff {state : State} {char : CharClass} :
    state.step char = .ok .found ↔ state = start ∧ char = .closeBrace := by
  rcases state with ⟨context, depth⟩
  constructor
  · intro h
    cases context <;> cases char <;> try cases h
    · obtain ⟨_, -, hnext⟩ := Fault.bind_eq_ok_iff.mp h
      cases hnext
    · cases depth with
      | zero => exact ⟨rfl, rfl⟩
      | succ depth => cases h
  · rintro ⟨hstate, rfl⟩
    rw [hstate]
    rfl

end State

end Block

end AsmBlock
