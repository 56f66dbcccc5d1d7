import AsmBlock.Proofs.Source.Bytes
import AsmBlock.Proofs.SourceInput.Scanning

/-!
# Scanning bytes

`ByteMachine` scans raw bytes and knows nothing of characters.  A scan of a source finds what the
machine finds on the bytes from the same offset on, also when that offset lies inside a character:
bytes inside a character are no delimiters, and both come from among them to the next character
(`ByteMachine.run_of_ahead`).
-/

namespace AsmBlock

namespace Block

/-! ## The machine -/

inductive ByteMode where
  | code
  | string
  | comment
  deriving DecidableEq, Repr

/-- The mode of the machine, and the number of opening braces not yet closed. -/
structure ByteMachine where
  mode : ByteMode
  depth : Nat
  deriving DecidableEq, Repr

/-- Where a machine stopped, if it did, and its successive depths on the way. -/
structure ByteRun where
  stop? : Option Nat
  depths : List Nat
  deriving DecidableEq, Repr

/-- The run with one more step in front, which may have changed the depth. -/
def ByteRun.cons (before after : Nat) (run : ByteRun) : ByteRun :=
  if after = before then run else { run with depths := after :: run.depths }

@[simp] theorem ByteRun.stop?_cons (before after : Nat) (run : ByteRun) :
    (run.cons before after).stop? = run.stop? := by
  unfold cons
  split <;> rfl

theorem ByteRun.depths_cons (before after : Nat) (run : ByteRun) :
    (run.cons before after).depths =
      (if after = before then [] else [after]) ++ run.depths := by
  unfold cons
  split <;> rfl

namespace ByteMachine

def start : ByteMachine := ⟨.code, 0⟩

/-- The machine behind a byte, or nothing if it stops in front of the byte. -/
def step (machine : ByteMachine) (byte : UInt8) : Option ByteMachine :=
  match machine.mode with
  | .code =>
    if byte = 0x22 then some ⟨.string, machine.depth⟩
    else if byte = 0x3B then some ⟨.comment, machine.depth⟩
    else if byte = 0x7B then some ⟨.code, machine.depth + 1⟩
    else if byte = 0x7D then
      if machine.depth = 0 then none else some ⟨.code, machine.depth - 1⟩
    else some machine
  | .string => if byte = 0x22 then some ⟨.code, machine.depth⟩ else some machine
  | .comment => if byte = 0x0A then some ⟨.code, machine.depth⟩ else some machine

/-- The run over bytes, the first of which is at the offset `pos`. -/
def run (machine : ByteMachine) (pos : Nat) : List UInt8 → ByteRun
  | [] => ⟨none, []⟩
  | byte :: bytes =>
    match machine.step byte with
    | none => ⟨some pos, []⟩
    | some after => (after.run (pos + 1) bytes).cons machine.depth after.depth

/-! ## Bytes that are not told apart -/

section Skip

variable (machine : ByteMachine)

theorem step_of_not_mem {byte : UInt8} (h : byte ∉ [0x22, 0x3B, 0x7B, 0x7D, 0x0A]) :
    machine.step byte = some machine := by
  simp only [List.mem_cons, List.not_mem_nil, or_false, not_or] at h
  obtain ⟨hquote, hsemicolon, hopen, hclose, hnewline⟩ := h
  unfold step
  split
  · rw [if_neg hquote, if_neg hsemicolon, if_neg hopen, if_neg hclose]
  · exact if_neg hquote
  · exact if_neg hnewline

theorem step_of_le {byte : UInt8} (h : 0x80 ≤ byte) : machine.step byte = some machine := by
  apply step_of_not_mem
  intro hmem
  simp only [List.mem_cons, List.not_mem_nil, or_false] at hmem
  rcases hmem with rfl | rfl | rfl | rfl | rfl <;> exact absurd h (by decide)

theorem run_cons_of_same {byte : UInt8} (h : machine.step byte = some machine) (pos : Nat)
    (bytes : List UInt8) : machine.run pos (byte :: bytes) = machine.run (pos + 1) bytes := by
  rw [run, h]
  exact if_pos rfl

theorem run_append_of_le {front : List UInt8} (h : ∀ byte ∈ front, 0x80 ≤ byte) (pos : Nat)
    (back : List UInt8) :
    machine.run pos (front ++ back) = machine.run (pos + front.length) back := by
  induction front generalizing pos with
  | nil => rfl
  | cons byte front ih =>
    have hbyte := h byte List.mem_cons_self
    have hfront := fun byte hmem => h byte (List.mem_cons_of_mem _ hmem)
    rw [List.cons_append, run_cons_of_same machine (machine.step_of_le hbyte), ih hfront,
      List.length_cons, Nat.add_assoc, Nat.add_comm 1]

/-- From inside a character the machine comes to the next character. -/
theorem run_of_ahead {source : Source} {pos gap : Nat} {rest : List Char}
    (h : source.Ahead pos gap rest) :
    machine.run pos (source.bytesFrom pos) = machine.run (pos + gap) (Utf8.bytes rest) := by
  induction gap generalizing pos with
  | zero =>
    have hrest : source.RestAt pos rest := h.restAt
    rw [hrest.bytesFrom_eq]
    rfl
  | succ gap ih =>
    have hle := h.restAt.pos_le
    have hvalid := h.inside pos (Nat.le_refl _) (by omega)
    obtain ⟨byte, hbyte, hbytes⟩ := Source.bytesFrom_of_not_isValid (by omega) hvalid
    rw [hbytes, run_cons_of_same machine (machine.step_of_le hbyte), ih h.succ, Nat.add_assoc,
      Nat.add_comm 1]

end Skip

end ByteMachine

/-! ## Walks as runs -/

/-- The mode in which a machine stands for a context. -/
def Context.byteMode : Context → ByteMode
  | .code => .code
  | .string => .string
  | .comment => .comment

namespace State

def machine (state : State) : ByteMachine := ⟨state.context.byteMode, state.depth⟩

end State

def Step.machine? : Step → Option ByteMachine
  | .found => none
  | .next after _ => some after.machine

namespace State

variable {state after : State} {char : Char}

/-- At a character of one byte the machine makes the step of the state. -/
theorem step_machine (hsize : char.utf8Size = 1) :
    state.machine.step char.val.toUInt8 = (state.move (.ofChar char)).machine? := by
  have hne : ∀ other : Char, other.utf8Size = 1 → char ≠ other →
      char.val.toUInt8 ≠ other.val.toUInt8 := by
    intro other hother hne heq
    exact hne ((Utf8.toUInt8_eq_iff hsize hother).mp heq)
  unfold CharClass.ofChar
  split
  · rcases state with ⟨_ | _ | _, depth⟩ <;> rfl
  · rcases state with ⟨_ | _ | _, depth⟩ <;> rfl
  · rcases state with ⟨_ | _ | _, depth⟩ <;> rfl
  · rcases state with ⟨_ | _ | _, depth⟩ <;> rfl
  · rcases state with ⟨_ | _ | _, _ | depth⟩ <;> rfl
  · next hquote hsemicolon hnewline hopen hclose =>
    have hother : state.machine.step char.val.toUInt8 = some state.machine := by
      apply ByteMachine.step_of_not_mem
      have hquote' : char.val.toUInt8 ≠ 0x22 := hne '"' rfl hquote
      have hsemicolon' : char.val.toUInt8 ≠ 0x3B := hne ';' rfl hsemicolon
      have hnewline' : char.val.toUInt8 ≠ 0x0A := hne '\n' rfl hnewline
      have hopen' : char.val.toUInt8 ≠ 0x7B := hne '{' rfl hopen
      have hclose' : char.val.toUInt8 ≠ 0x7D := hne '}' rfl hclose
      simp only [List.mem_cons, List.not_mem_nil, or_false, not_or]
      exact ⟨hquote', hsemicolon', hopen', hclose', hnewline'⟩
    rw [hother]
    rcases state with ⟨_ | _ | _, depth⟩ <;> rfl

theorem move_of_wide (hsize : char.utf8Size ≠ 1) :
    state.move (.ofChar char) = .next state none := by
  rcases state with ⟨context, depth⟩
  unfold CharClass.ofChar
  split <;> first | exact absurd rfl hsize | (cases context <;> rfl)

/-- A step reports the depth exactly when it changes. -/
theorem fields_of_move {char : CharClass} {event? : Option Log.Event}
    (h : state.move char = .next after event?) : event?.toList.map Log.Event.fields =
      (if after.depth = state.depth then [] else [after.depth]).map fun depth =>
        [("depth", .number depth)] := by
  rcases state with ⟨context, depth⟩
  cases context <;> cases char <;> try (cases h; rw [if_pos rfl]; rfl)
  · cases h
    rw [if_neg (Nat.succ_ne_self depth)]
    rfl
  · cases depth with
    | zero => cases h
    | succ depth =>
      cases h
      rw [if_neg (Nat.succ_ne_self depth).symm]
      rfl

/-- A run over the bytes of a character is one step of the state. -/
theorem run_bytes_cons (state : State) (char : Char) (chars : List Char) (pos : Nat) :
    state.machine.run pos (Utf8.bytes (char :: chars)) =
      match state.move (.ofChar char) with
      | .found => ⟨some pos, []⟩
      | .next after _ => (after.machine.run (pos + char.utf8Size) (Utf8.bytes chars)).cons
          state.depth after.depth := by
  rw [Utf8.bytes_cons]
  -- either one byte, which the machine tells like the character, or bytes that it skips
  by_cases hsize : char.utf8Size = 1
  · rw [String.utf8EncodeChar_eq_singleton hsize, List.singleton_append, ByteMachine.run,
      step_machine hsize, hsize]
    cases state.move (.ofChar char) <;> rfl
  · rw [ByteMachine.run_append_of_le _ fun byte => Utf8.le_of_mem_utf8EncodeChar hsize,
      String.length_utf8EncodeChar, move_of_wide hsize]
    exact (if_pos rfl).symm

/-- A run over the bytes of characters stops where the walk over the characters does. -/
theorem stop?_run_bytes (state : State) (chars : List Char) (pos : Nat) :
    (state.machine.run pos (Utf8.bytes chars)).stop? =
      if (state.walk chars).found then
        some (pos + Utf8.size (chars.take (state.walk chars).length))
      else none := by
  induction chars generalizing state pos with
  | nil => rfl
  | cons char chars ih =>
    rw [run_bytes_cons]
    cases hmove : state.move (.ofChar char) with
    | found =>
      rw [walk_cons_of_found hmove]
      rfl
    | next after event? =>
      rw [walk_cons_of_next hmove, ByteRun.stop?_cons, ih, Nat.add_assoc]
      rfl

/-- The depths of a run over bytes are those that the walk over the characters reports. -/
theorem depths_run_bytes (state : State) (chars : List Char) (pos : Nat) :
    (state.walk chars).events.map Log.Event.fields =
      (state.machine.run pos (Utf8.bytes chars)).depths.map fun depth =>
        [("depth", .number depth)] := by
  induction chars generalizing state pos with
  | nil => rfl
  | cons char chars ih =>
    rw [run_bytes_cons]
    cases hmove : state.move (.ofChar char) with
    | found =>
      rw [walk_cons_of_found hmove]
      rfl
    | next after event? =>
      rw [walk_cons_of_next hmove, Walk.cons, List.map_append, fields_of_move hmove,
        ih after (pos + char.utf8Size), ← List.map_append, ByteRun.depths_cons]

end State

/-! ## Scans as runs -/

section Ahead

variable {source : Source} {pos gap : Nat} {rest : List Char} (h : source.Ahead pos gap rest)

include h

theorem stop?_run_of_ahead : (ByteMachine.start.run pos (source.bytesFrom pos)).stop? =
    if (State.start.walk rest).found then
      some (pos + gap + Utf8.size (rest.take (State.start.walk rest).length))
    else none := by
  rw [ByteMachine.run_of_ahead _ h]
  exact State.start.stop?_run_bytes rest (pos + gap)

theorem depths_run_of_ahead : (State.start.walk rest).events.map Log.Event.fields =
    (ByteMachine.start.run pos (source.bytesFrom pos)).depths.map fun depth =>
      [("depth", .number depth)] := by
  rw [ByteMachine.run_of_ahead _ h]
  exact State.start.depths_run_bytes rest (pos + gap)

theorem stop_of_ahead : pos + gap + Utf8.size (rest.take (State.start.walk rest).length) =
    (ByteMachine.start.run pos (source.bytesFrom pos)).stop?.getD source.size := by
  rw [stop?_run_of_ahead h]
  cases hfound : (State.start.walk rest).found with
  | true => rfl
  | false =>
    rw [State.length_walk_of_not_found hfound, List.take_length]
    exact h.restAt.pos_add_size

end Ahead

/-- **Scanning characters is scanning bytes.**  From any offset, a scan finds its token where the
machine stops, comes to the same offset and traces the depths of the machine.  From inside a
character it differs from the scan that starts at the next character in the token's start only. -/
theorem scanSource_eq_run (source : Source) (start : Nat) (flags : List Bool) :
    let first := min start source.size
    let run := ByteMachine.start.run first (source.bytesFrom first)
    scanSource source start ⟨true :: flags⟩ =
      .ok (run.stop?.map fun stop => ⟨.llvmIr, first, stop⟩) ∧
    (∃ result, scan ⟨true :: flags⟩ (SourceInput.ofCursor (source.cursor start)) = .ok result ∧
      result.input.pos = run.stop?.getD source.size ∧
      (result.events.toList.filter fun event => event.level = .trace).map Log.Event.fields =
        run.depths.map fun depth => [("depth", .number depth)]) ∧
    ∃ next : source.text.Pos, first ≤ next.offset.byteIdx ∧
      (∀ here : source.text.Pos, first ≤ here.offset.byteIdx → next ≤ here) ∧
      scanSource source next.offset.byteIdx ⟨true :: flags⟩ =
        .ok (run.stop?.map fun stop => ⟨.llvmIr, next.offset.byteIdx, stop⟩) := by
  intro first run
  obtain ⟨gap, rest, hahead⟩ := source.exists_ahead (Nat.min_le_right start source.size)
  have hstop := stop?_run_of_ahead hahead
  refine ⟨?_, ?_, ?_⟩
  · rw [scanSource_of_ahead hahead, hstop]
    split <;> rfl
  · obtain ⟨result, hscan, -, hpos, hevents⟩ := exists_scan_of_ahead hahead flags
    refine ⟨result, hscan, ?_, ?_⟩
    · rw [hpos, stop_of_ahead hahead]
    · rw [hevents, State.filter_report_walk, depths_run_of_ahead hahead]
  · obtain ⟨next, hnext, hleast⟩ := hahead.exists_pos
    refine ⟨next, by omega, hleast, ?_⟩
    rw [hnext, scanSource_of_restAt hahead.restAt, hstop]
    split <;> rfl

end Block

end AsmBlock
