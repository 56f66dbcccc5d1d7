import AsmBlock.Block.State
import AsmBlock.Input
import AsmBlock.SourceInput
import AsmBlock.TokenFlags

/-!
# Scanning a block

The scan looks for the closing brace of a block from behind its opening brace.
Where it finds the brace it records the token and marks its end in front of the
brace, which is left for the parser.  Without such a brace the scan uses up the
input; going back is the business of the input's owner.  The main statements
say how a scan goes on, or ends, at each character.
-/

namespace AsmBlock

namespace Block

/-- What a scan leaves behind. -/
structure Scan (σ : Type) where
  /-- Whether the closing brace was found. -/
  found : Bool
  input : σ
  events : Array Log.Event

variable {σ : Type} [Input σ]

namespace Scan

/-- Scans from a state to the closing brace or the end of the input, adding to
the events reported before. -/
def run (state : State) (events : Array Log.Event) (input : σ) : Except Fault (Scan σ) :=
  match hend : Input.atEnd input with
  | .error fault => .error fault
  | .ok true => .ok ⟨false, input, events.push state.endEvent⟩
  | .ok false =>
    match Input.lookahead input with
    | .error fault => .error fault
    | .ok char =>
      match state.step (CharClass.ofChar char) with
      | .error fault => .error fault
      | .ok .found =>
        .ok ⟨true, Input.markEnd (Input.recognize .llvmIr input), events.push .blockMatched⟩
      | .ok (.next state event?) =>
        match hadvance : Input.advance false input with
        | .error fault => .error fault
        | .ok advanced =>
          have : Input.remaining advanced < Input.remaining input :=
            Input.remaining_advance hend hadvance
          run state (events ++ event?.toArray) advanced
termination_by Input.remaining input

end Scan

/-- Scans for the closing brace of a block, if the host accepts its text as a
token.  Otherwise the input is not touched. -/
def scan (valid : TokenFlags) (input : σ) : Except Fault (Scan σ) :=
  if valid.contains .llvmIr then Scan.run .start #[] input else .ok ⟨false, input, #[]⟩

/-- The text of a block that starts at a byte offset of a source, as a token. -/
def scanSource (source : Source) (start : Nat) (valid : TokenFlags) :
    Except Fault (Option Token) := do
  let scan ← scan valid (SourceInput.ofCursor (source.cursor start))
  return if scan.found then scan.input.token? else none

/-! ## Single steps of a scan -/

namespace Scan

theorem run_of_atEnd {state : State} {events : Array Log.Event} {input : σ}
    (hend : Input.atEnd input = .ok true) :
    run state events input = .ok ⟨false, input, events.push state.endEvent⟩ := by
  rw [run]
  split
  · next h => rw [hend] at h; cases h
  · rfl
  · next h => rw [hend] at h; cases h

theorem run_of_found {state : State} {events : Array Log.Event} {input : σ} {char : Char}
    (hend : Input.atEnd input = .ok false) (hchar : Input.lookahead input = .ok char)
    (hstep : state.step (CharClass.ofChar char) = .ok .found) :
    run state events input =
      .ok ⟨true, Input.markEnd (Input.recognize .llvmIr input), events.push .blockMatched⟩ := by
  rw [run]
  split
  · next h => rw [hend] at h; cases h
  · next h => rw [hend] at h; cases h
  · simp only [hchar, hstep]

theorem run_of_next {state next : State} {event? : Option Log.Event}
    {events : Array Log.Event} {input advanced : σ} {char : Char}
    (hend : Input.atEnd input = .ok false) (hchar : Input.lookahead input = .ok char)
    (hstep : state.step (CharClass.ofChar char) = .ok (.next next event?))
    (hadvance : Input.advance false input = .ok advanced) :
    run state events input = run next (events ++ event?.toArray) advanced := by
  rw [run]
  split
  · next h => rw [hend] at h; cases h
  · next h => rw [hend] at h; cases h
  · simp only [hchar, hstep]
    split
    · next h => rw [hadvance] at h; cases h
    · next h => rw [hadvance] at h; cases h; rfl

end Scan

/-- A scan for a token that the host does not accept does nothing. -/
theorem scan_of_not_contains {valid : TokenFlags} (h : valid.contains .llvmIr = false)
    (input : σ) : scan valid input = .ok ⟨false, input, #[]⟩ := by
  simp [scan, h]

end Block

end AsmBlock
