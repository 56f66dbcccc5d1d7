import AsmBlock.Proofs.Block.Walk
import AsmBlock.Proofs.Cursor.Decoding

/-!
# Scanning a source

A scan that starts anywhere in a source walks over the characters from the next character on
(`Scan.run_of_ahead`).  It always succeeds or fails as the walk says and never faults, and apart
from its position the input changes only when the closing brace was found.
-/

namespace AsmBlock

namespace SourceInput

/-- The input with its cursor at another offset of the same text. -/
def moveTo (input : SourceInput) (pos : Nat) : SourceInput :=
  { input with cursor := { input.cursor with pos } }

@[simp] theorem pos_moveTo (input : SourceInput) (pos : Nat) : (input.moveTo pos).pos = pos := rfl

@[simp] theorem moveTo_moveTo (input : SourceInput) (pos pos' : Nat) :
    (input.moveTo pos).moveTo pos' = input.moveTo pos' := rfl

theorem advance_of_next {input : SourceInput} {pos : Nat}
    (h : input.cursor.next = .ok ⟨input.cursor.source, pos⟩) :
    Input.advance false input = .ok (input.moveTo pos) := by
  change advance false input = _
  rw [advance, h]
  rfl

theorem advance_skip_of_next {input : SourceInput} {pos : Nat}
    (h : input.cursor.next = .ok ⟨input.cursor.source, pos⟩) :
    Input.advance true input = .ok (input.moveTo pos).startHere := by
  change advance true input = _
  rw [advance, h]
  rfl

theorem token?_markEnd_recognize {input : SourceInput} {kind : Token.Kind}
    (h : input.tokenStart ≤ input.pos) :
    (Input.markEnd (Input.recognize kind input)).token? =
      some ⟨kind, input.tokenStart, input.pos⟩ := by
  have hmax : max input.pos input.tokenStart = input.pos := Nat.max_eq_left h
  exact congrArg (fun stop => some (Token.mk kind input.tokenStart stop)) hmax

/-! ## Steps -/

/-- An input yields a character, and goes on behind it. -/
structure Yields (input : SourceInput) (char : Char) (behind : SourceInput) : Prop where
  atEnd : Input.atEnd input = .ok false
  lookahead : Input.lookahead input = .ok char
  advance : Input.advance false input = .ok behind

theorem yields_of_restAt {input : SourceInput} {char : Char} {rest : List Char}
    (h : input.cursor.source.RestAt input.pos (char :: rest)) :
    input.Yields char (input.moveTo (input.pos + char.utf8Size)) where
  atEnd := Cursor.atEnd_of_restAt h
  lookahead := Cursor.char_of_restAt h
  advance := advance_of_next (Cursor.next_of_restAt h)

/-- Inside a character an input yields the replacement character, and goes on at the next byte. -/
theorem yields_of_ahead {input : SourceInput} {gap : Nat} {rest : List Char}
    (h : input.cursor.source.Ahead input.pos (gap + 1) rest) :
    input.Yields Utf8.replacement (input.moveTo (input.pos + 1)) := by
  have hle := h.restAt.pos_le
  have hpos : input.pos < input.cursor.source.size := by omega
  have hvalid := h.inside input.pos (Nat.le_refl _) (by omega)
  exact ⟨Cursor.atEnd_eq_ok_false_iff.mpr hpos, Cursor.char_of_not_isValid hpos hvalid,
    advance_of_next (Cursor.next_of_not_isValid hpos hvalid)⟩

/-- An input yields the characters that are left of its text. -/
theorem reads_of_restAt {input : SourceInput} {chars rest : List Char}
    (h : input.cursor.source.RestAt input.pos (chars ++ rest)) :
    Input.Reads input chars (input.moveTo (input.pos + Utf8.size chars)) := by
  induction chars generalizing input with
  | nil => exact .nil input
  | cons char chars ih =>
    have htail : (input.moveTo (input.pos + char.utf8Size)).cursor.source.RestAt
        (input.moveTo (input.pos + char.utf8Size)).pos (chars ++ rest) := h.tail
    have hrest := ih htail
    rw [moveTo_moveTo, pos_moveTo, Nat.add_assoc] at hrest
    rw [Utf8.size_cons]
    have hyields := yields_of_restAt h
    exact .cons hyields.atEnd hyields.lookahead hyields.advance hrest

/-- From inside a character an input yields a replacement character for each byte up to the next
character, and then the characters that are left. -/
theorem reads_of_ahead {input : SourceInput} {gap : Nat} {chars rest : List Char}
    (h : input.cursor.source.Ahead input.pos gap (chars ++ rest)) :
    Input.Reads input (List.replicate gap Utf8.replacement ++ chars)
      (input.moveTo (input.pos + gap + Utf8.size chars)) := by
  induction gap generalizing input with
  | zero => exact reads_of_restAt h.restAt
  | succ gap ih =>
    have hsucc : (input.moveTo (input.pos + 1)).cursor.source.Ahead
        (input.moveTo (input.pos + 1)).pos gap (chars ++ rest) := h.succ
    have hrest := ih hsucc
    rw [moveTo_moveTo, pos_moveTo, Nat.add_assoc input.pos, Nat.add_comm 1] at hrest
    have hyields := yields_of_ahead h
    exact .cons hyields.atEnd hyields.lookahead hyields.advance hrest

end SourceInput

namespace Block

open SourceInput

variable {input : SourceInput} {gap : Nat} {rest : List Char}

/-- The replacement character is no delimiter. -/
theorem State.step_replacement (state : State) :
    state.step (.ofChar Utf8.replacement) = .ok (.next state none) := by
  rcases state with ⟨context, depth⟩
  cases context <;> rfl

/-- The step over a byte inside a character changes nothing but the position. -/
theorem Scan.run_of_inside (h : input.cursor.source.Ahead input.pos (gap + 1) rest) (state : State)
    (events : Array Log.Event) :
    run state events input = run state events (input.moveTo (input.pos + 1)) := by
  have hyields := yields_of_ahead h
  have hnone : events ++ (none : Option Log.Event).toArray = events := by simp
  rw [run_of_next hyields.atEnd hyields.lookahead state.step_replacement hyields.advance, hnone]

theorem Scan.run_of_ahead (h : input.cursor.source.Ahead input.pos gap rest) {state : State}
    (hdepth : state.depth + rest.length < offsetLimit) (events : Array Log.Event) :
    run state events input = .ok ((state.walk rest).toScan events
      (input.moveTo (input.pos + gap + Utf8.size (rest.take (state.walk rest).length)))) := by
  -- byte by byte through the gap, then character by character
  induction gap generalizing input with
  | zero =>
    have hall : input.cursor.source.RestAt input.pos (rest ++ []) := by simpa using h.restAt
    have hreads := reads_of_restAt hall
    have hend : Input.atEnd (input.moveTo (input.pos + Utf8.size rest)) = .ok true := by
      apply Cursor.atEnd_of_restAt_nil
      exact hall.skip
    obtain ⟨stop, hstop, hrun⟩ := run_of_reads hreads hend hdepth events
    have hsplit : input.cursor.source.RestAt input.pos
        (rest.take (state.walk rest).length ++ rest.drop (state.walk rest).length) := by
      simpa using h.restAt
    have hprefix := reads_of_restAt hsplit
    rw [hrun, hstop.unique hprefix, Nat.add_zero]
  | succ gap ih =>
    have hsucc : (input.moveTo (input.pos + 1)).cursor.source.Ahead
        (input.moveTo (input.pos + 1)).pos gap rest := h.succ
    rw [run_of_inside h, ih hsucc, pos_moveTo, moveTo_moveTo,
      show input.pos + (gap + 1) = input.pos + 1 + gap by omega]

/-- A scan for an accepted token is the walk from the next character on. -/
theorem scan_of_ahead (h : input.cursor.source.Ahead input.pos gap rest) (flags : List Bool) :
    scan ⟨true :: flags⟩ input = .ok ((State.start.walk rest).toScan #[]
      (input.moveTo (input.pos + gap + Utf8.size (rest.take (State.start.walk rest).length)))) := by
  have hdepth : State.start.depth + rest.length < offsetLimit := by
    have hlength := h.restAt.length_lt
    simpa [State.start] using hlength
  exact Scan.run_of_ahead h hdepth #[]

theorem exists_scan_of_ahead {source : Source} {start : Nat}
    (h : source.Ahead (min start source.size) gap rest) (flags : List Bool) :
    ∃ result, scan ⟨true :: flags⟩ (ofCursor (source.cursor start)) = .ok result ∧
      result.found = (State.start.walk rest).found ∧
      result.input.pos = min start source.size + gap +
        Utf8.size (rest.take (State.start.walk rest).length) ∧
      result.events.toList = (State.start.walk rest).report := by
  have hahead : (ofCursor (source.cursor start)).cursor.source.Ahead
      (ofCursor (source.cursor start)).pos gap rest := h
  refine ⟨_, scan_of_ahead hahead flags, rfl, ?_, ?_⟩
  · unfold Walk.toScan
    split <;> rfl
  · simp [Walk.toScan]

theorem scanSource_of_ahead {source : Source} {start : Nat}
    (h : source.Ahead (min start source.size) gap rest) (flags : List Bool) :
    scanSource source start ⟨true :: flags⟩ =
      .ok (if (State.start.walk rest).found then
        some ⟨.llvmIr, min start source.size,
          min start source.size + gap + Utf8.size (rest.take (State.start.walk rest).length)⟩
      else none) := by
  have hahead : (ofCursor (source.cursor start)).cursor.source.Ahead
      (ofCursor (source.cursor start)).pos gap rest := h
  have hscan := scan_of_ahead hahead flags
  rw [scanSource, hscan]
  simp only [bind, Except.bind, pure, Except.pure, Walk.toScan]
  refine congrArg Except.ok ?_
  split
  · refine token?_markEnd_recognize ?_
    rw [pos_moveTo, Nat.add_assoc]
    exact Nat.le_add_right _ _
  · rfl

/-- A scan that starts at a character is the walk over the characters left. -/
theorem scanSource_of_restAt {source : Source} {pos : Nat} (h : source.RestAt pos rest)
    (flags : List Bool) :
    scanSource source pos ⟨true :: flags⟩ = .ok (if (State.start.walk rest).found then
      some ⟨.llvmIr, pos, pos + Utf8.size (rest.take (State.start.walk rest).length)⟩
    else none) := by
  have hmin : min pos source.size = pos := Nat.min_eq_left h.pos_le
  have hahead : source.Ahead (min pos source.size) 0 rest := hmin.symm ▸ h.ahead
  have hscan := scanSource_of_ahead hahead flags
  rwa [hmin, Nat.add_zero] at hscan

end Block

end AsmBlock
