import AsmBlock.Input.Recorded
import AsmBlock.Proofs.Block.Recognition
import AsmBlock.Proofs.Host.Scanning

/-!
# The calls of a scan

A scan changes its input by one step for each character that it reads, and a scan that found its
token records the kind and then marks the end, and does no more.  It never skips, and never steps
when the input has come to its end (`Disciplined`).  This holds of every input that yields its
characters, and so of sources and of hosts (`scan_keeps_discipline`).
-/

namespace AsmBlock

namespace Input

variable {σ : Type} [Input σ]

/-- A recorded input yields what the input underneath does, and records each step. -/
theorem Reads.record {first last : σ} {chars : List Char} (h : Reads first chars last)
    (calls : Array Call) :
    ∃ recorded, Reads (Recorded.mk first calls) chars ⟨last, recorded⟩ ∧
      recorded.toList = calls.toList ++ List.replicate chars.length (.advance false) := by
  induction h generalizing calls with
  | nil state =>
    exact ⟨calls, .nil _, (List.append_nil _).symm⟩
  | @cons state next last char chars hend hchar hnext hrest ih =>
    obtain ⟨recorded, hreads, hrecorded⟩ := ih (calls.push (.advance false))
    have hstep : advance false (Recorded.mk state calls) =
        .ok (Recorded.mk next (calls.push (.advance false))) :=
      Fault.bind_eq_ok_iff.mpr ⟨next, hnext, rfl⟩
    refine ⟨recorded, .cons hend hchar hstep hreads, ?_⟩
    rw [hrecorded, Array.toList_push, List.append_assoc]
    rfl

end Input

namespace Block

open Input

/-- The calls by which a scan changes its input: its steps, and what it records of a token. -/
def scanCalls (found : Bool) (steps : Nat) : List Call :=
  List.replicate steps (.advance false) ++ if found then [.recognize .llvmIr, .markEnd] else []

/-- A scan ends, and changes its input by `scanCalls` alone, with more input in front of each of its
steps. -/
structure Disciplined {σ : Type} [Input σ] (valid : TokenFlags) (input : σ) (result : Scan σ)
    (steps : Nat) : Prop where
  scanned : scan valid input = .ok result
  /-- A recorded input is scanned alike, and holds the calls. -/
  recorded : ∃ calls, calls.toList = scanCalls result.found steps ∧
    scan valid (Recorded.start input) = .ok ⟨result.found, ⟨result.input, calls⟩, result.events⟩
  performed : ∃ answers, performAll input (scanCalls result.found steps) =
    .ok (answers, result.input)
  more : ∀ count < steps, ∃ answers state,
    performAll input (List.replicate count (.advance false)) = .ok (answers, state) ∧
      atEnd state = .ok false

/-! ## Scans without a limit -/

namespace State

theorem target_endEvent (state : State) : state.endEvent.target = "autolang_scanner::llvm_ir" := by
  rcases state with ⟨context, depth⟩
  cases context <;> rfl

end State

namespace Scan

variable {σ : Type} [Input σ] {state : State} {events : Array Log.Event} {input : σ}
  {result : Scan σ}

/-- The last that a scan does to its input is to record the kind and mark the end. -/
theorem exists_stop_of_run (h : run state events input = .ok result)
    (hfound : result.found = true) : ∃ stop, result.input = markEnd (recognize .llvmIr stop) := by
  fun_induction run state events input with
  | case1 | case3 | case4 | case6 => cases h
  | case2 =>
    cases h
    cases hfound
  | case5 state events input =>
    cases h
    exact ⟨input, rfl⟩
  | case7 _ _ _ _ _ _ _ _ _ _ _ _ ih => exact ih h

theorem target_of_run (h : run state events input = .ok result)
    (hevents : ∀ event ∈ events, event.target = "autolang_scanner::llvm_ir") :
    ∀ event ∈ result.events, event.target = "autolang_scanner::llvm_ir" := by
  fun_induction run state events input with
  | case1 | case3 | case4 | case6 => cases h
  | case2 state events input hend =>
    cases h
    intro event hevent
    rcases Array.mem_push.mp hevent with hevent | rfl
    · exact hevents event hevent
    · exact state.target_endEvent
  | case5 state events input =>
    cases h
    intro event hevent
    rcases Array.mem_push.mp hevent with hevent | rfl
    · exact hevents event hevent
    · rfl
  | case7 state events input _ char _ after event? hstep advanced _ _ ih =>
    refine ih h ?_
    intro event hevent
    rcases Array.mem_append.mp hevent with hevent | hevent
    · exact hevents event hevent
    · rw [Option.mem_toArray.mp hevent] at hstep
      exact (State.traced_of_move (State.move_of_step hstep)).2

end Scan

/-- Of the flags a scan looks at that of its token only. -/
theorem scan_congr {σ : Type} [Input σ] {valid valid' : TokenFlags}
    (h : valid.contains .llvmIr = valid'.contains .llvmIr) (input : σ) :
    scan valid input = scan valid' input := by
  rw [scan, scan, h]

section Scans

variable {σ : Type} [Input σ] {valid : TokenFlags} {input : σ} {result : Scan σ}
  (h : scan valid input = .ok result)

include h

theorem exists_stop_of_scan (hfound : result.found = true) :
    ∃ stop, result.input = markEnd (recognize .llvmIr stop) := by
  unfold scan at h
  split at h
  · exact Scan.exists_stop_of_run h hfound
  · cases h
    cases hfound

theorem target_of_scan : ∀ event ∈ result.events, event.target = "autolang_scanner::llvm_ir" := by
  unfold scan at h
  split at h
  · refine Scan.target_of_run h ?_
    intro event hevent
    exact absurd hevent (Array.not_mem_empty event)
  · cases h
    intro event hevent
    exact absurd hevent (Array.not_mem_empty event)

end Scans

/-! ## Any input -/

section Reads

variable {σ : Type} [Input σ] {input last stop : σ} {chars : List Char}

theorem more_of_reads (hreads : Reads input chars last) {count : Nat}
    (hcount : count < chars.length) : ∃ answers state,
    performAll input (List.replicate count (.advance false)) = .ok (answers, state) ∧
      atEnd state = .ok false := by
  rw [← List.take_append_drop count chars, List.drop_eq_getElem_cons hcount] at hreads
  obtain ⟨state, hfront, hback⟩ := hreads.split
  have hnone : performAll state [] = .ok ([], state) := rfl
  have hperformed := hfront.performAll hnone
  rw [List.append_nil, List.length_take, Nat.min_eq_left (Nat.le_of_lt hcount)] at hperformed
  cases hback with
  | cons hend _ _ _ => exact ⟨_, state, hperformed, hend⟩

/-- A scan that stopped where a recorded input stands adds what it records of a token. -/
theorem toScan_recorded (walk : Walk) (stop : σ) {calls : Array Call}
    (hcalls : calls.toList = List.replicate walk.length (.advance false)) :
    ∃ calls', calls'.toList = scanCalls walk.found walk.length ∧
      walk.toScan #[] (Recorded.mk stop calls) = ⟨walk.found,
        ⟨(walk.toScan #[] stop).input, calls'⟩, (walk.toScan #[] stop).events⟩ := by
  cases hfound : walk.found with
  | true =>
    refine ⟨(calls.push (.recognize .llvmIr)).push .markEnd, ?_, ?_⟩
    · rw [Array.toList_push, Array.toList_push, hcalls, List.append_assoc]
      rfl
    · rw [Walk.toScan_of_found hfound, Walk.toScan_of_found hfound]
      rfl
  | false =>
    refine ⟨calls, ?_, ?_⟩
    · rw [hcalls]
      exact (List.append_nil _).symm
    · rw [Walk.toScan_of_not_found hfound, Walk.toScan_of_not_found hfound]

theorem performed_of_reads (walk : Walk) (hreads : Reads input chars stop)
    (hlength : chars.length = walk.length) : ∃ answers,
    performAll input (scanCalls walk.found walk.length) =
      .ok (answers, (walk.toScan #[] stop).input) := by
  rw [← hlength]
  cases hfound : walk.found with
  | true =>
    rw [Walk.toScan_of_found hfound]
    exact ⟨_, hreads.performAll rfl⟩
  | false =>
    rw [Walk.toScan_of_not_found hfound]
    exact ⟨_, hreads.performAll rfl⟩

/-- A scan of an input that yields `chars` up to its end stops with the walk over them, in front of
a closing brace if it found one. -/
theorem disciplined_of_reads (hreads : Reads input chars last) (hend : atEnd last = .ok true)
    (hlength : chars.length < offsetLimit) (flags : List Bool) :
    ∃ stop, Reads input (chars.take (State.start.walk chars).length) stop ∧
      Disciplined ⟨true :: flags⟩ input ((State.start.walk chars).toScan #[] stop)
        (State.start.walk chars).length ∧
      ((State.start.walk chars).found = true →
        atEnd stop = .ok false ∧ lookahead stop = .ok '}') := by
  have hdepth : State.start.depth + chars.length < offsetLimit := by simpa [State.start]
  have hsteps : (chars.take (State.start.walk chars).length).length =
      (State.start.walk chars).length :=
    List.length_take_of_le (State.length_walk_le .start chars)
  obtain ⟨stop, hstop, hrun⟩ := Scan.run_of_reads hreads hend hdepth #[]
  -- the recorded input is read and walked over in the same way
  obtain ⟨_, hrecorded, -⟩ := hreads.record #[]
  obtain ⟨stop', hstop', hrun'⟩ := Scan.run_of_reads hrecorded hend hdepth #[]
  obtain ⟨calls, hcalls, hlist⟩ := hstop.record #[]
  cases hstop'.unique hcalls
  rw [hsteps] at hlist
  refine ⟨stop, hstop, ⟨hrun, ?_, ?_, ?_⟩, ?_⟩
  · obtain ⟨calls', hcalls', hscan⟩ := toScan_recorded (State.start.walk chars) stop hlist
    exact ⟨calls', hcalls', hrun'.trans (congrArg Except.ok hscan)⟩
  · exact performed_of_reads _ hstop hsteps
  · intro count hcount
    exact more_of_reads hstop (by omega)
  · intro hfound
    obtain ⟨body, after, hchars, hbody⟩ := take_walk_of_found hfound
    rw [hchars] at hreads
    obtain ⟨middle, hfront, hback⟩ := hreads.split
    rw [hbody] at hstop
    cases hstop.unique hfront
    cases hback with
    | cons hmore hbrace _ _ => exact ⟨hmore, hbrace⟩

end Reads

/-! ## Sources and hosts -/

/-- A scan for a token that is not accepted makes no call. -/
theorem scan_of_head?_ne {σ : Type} [Input σ] {valid : TokenFlags}
    (h : valid.flags.head? ≠ some true) (input : σ) :
    scan valid input = .ok ⟨false, input, #[]⟩ := by
  rcases valid.contains_eq_false_or with hnot | ⟨flags, rfl⟩
  · exact scan_of_not_contains hnot input
  · exact absurd rfl h

/-- From a character of a source the scan steps over characters, and stops at one if it found a
closing brace. -/
theorem disciplined_source (source : Source) (here : source.text.Pos) (tokenStart : Nat)
    (endMark : Option Nat) (kind? : Option Token.Kind) (flags : List Bool) :
    ∃ (there : source.text.Pos) (result : Scan SourceInput),
      Disciplined ⟨true :: flags⟩ ⟨⟨source, here.offset.byteIdx⟩, tokenStart, endMark, kind?⟩ result
        (source.text.extract here there).toList.length ∧
      here ≤ there ∧ result.input.cursor = ⟨source, there.offset.byteIdx⟩ ∧
      result.input.tokenStart = tokenStart ∧
      (result.found = true →
        atEnd result.input = .ok false ∧ lookahead result.input = .ok '}' ∧
          result.input.endMark = some result.input.pos) := by
  let input : SourceInput := ⟨⟨source, here.offset.byteIdx⟩, tokenStart, endMark, kind?⟩
  let rest := (source.text.extract here source.text.endPos).toList
  have hrest : source.RestAt input.pos rest := source.restAt_extract_endPos here
  have hall : source.RestAt input.pos (rest ++ []) := by rwa [List.append_nil]
  have hend : atEnd (input.moveTo (input.pos + Utf8.size rest)) = .ok true :=
    Cursor.atEnd_of_restAt_nil hall.skip
  obtain ⟨stop, hstop, hdisciplined, hfound⟩ :=
    disciplined_of_reads (SourceInput.reads_of_restAt hall) hend hrest.length_lt flags
  rw [← List.take_append_drop (State.start.walk rest).length rest] at hrest
  cases hstop.unique (SourceInput.reads_of_restAt hrest)
  obtain ⟨there, -, hthere, -⟩ := hrest.skip.exists_splits
  have hle : here.offset.byteIdx ≤ there.offset.byteIdx := by
    rw [hthere]
    exact Nat.le_add_right _ _
  have hlength : (source.text.extract here there).toList.length =
      (State.start.walk rest).length := by
    rw [hrest.extract_eq hthere]
    exact List.length_take_of_le (State.length_walk_le .start rest)
  rw [← hthere, ← hlength] at hdisciplined
  rw [← hthere] at hfound
  cases hwalk : (State.start.walk rest).found with
  | true =>
    obtain ⟨hmore, hbrace⟩ := hfound hwalk
    rw [Walk.toScan_of_found hwalk] at hdisciplined
    exact ⟨there, _, hdisciplined, hle, rfl, rfl, fun _ => ⟨hmore, hbrace, rfl⟩⟩
  | false =>
    rw [Walk.toScan_of_not_found hwalk] at hdisciplined
    exact ⟨there, _, hdisciplined, hle, rfl, rfl, fun h => nomatch h⟩

/-- From any state of a host the scan steps over units. -/
theorem disciplined_host {host : Host} (hlimit : host.endAt - host.pos < offsetLimit)
    (flags : List Bool) :
    ∃ (steps : Nat) (result : Scan Host),
      Disciplined ⟨true :: flags⟩ host result steps ∧
      result.input.pos = host.pos + steps ∧ result.input.tokenStart = host.tokenStart ∧
      (result.found = true →
        atEnd result.input = .ok false ∧ lookahead result.input = .ok '}' ∧
          result.input.endMark = some result.input.pos) := by
  rw [← host.length_ahead] at hlimit
  have hend : atEnd (host.forward host.ahead.length) = .ok true :=
    congrArg Except.ok host.atEnd_forward
  obtain ⟨stop, hstop, hdisciplined, hfound⟩ :=
    disciplined_of_reads host.reads_ahead hend hlimit flags
  have hle := State.length_walk_le .start host.ahead
  have hforward := Host.eq_forward_of_reads hstop
  rw [List.length_take_of_le hle] at hforward
  subst hforward
  have hpos := host.pos_forward_of_le (Nat.le_trans hle (Nat.le_of_eq host.length_ahead))
  have hstart := host.tokenStart_forward (State.start.walk host.ahead).length
  cases hwalk : (State.start.walk host.ahead).found with
  | true =>
    obtain ⟨hmore, hbrace⟩ := hfound hwalk
    rw [Walk.toScan_of_found hwalk] at hdisciplined
    exact ⟨_, _, hdisciplined, hpos, hstart, fun _ => ⟨hmore, hbrace, rfl⟩⟩
  | false =>
    rw [Walk.toScan_of_not_found hwalk] at hdisciplined
    exact ⟨_, _, hdisciplined, hpos, hstart, fun h => nomatch h⟩

/-- **A scan keeps to its calls.**  A scan for a token that is not accepted makes none.  Every other
scan ends, steps over the characters up to where it stops, one step each and none at the end of the
input, and then records the kind and marks the end if it found the closing brace, in front of which
it stops. -/
theorem scan_keeps_discipline :
    (∀ (σ : Type) [Input σ] (input : σ) (valid : TokenFlags), valid.flags.head? ≠ some true →
      scan valid input = .ok ⟨false, input, #[]⟩ ∧
        scan valid (Recorded.start input) = .ok ⟨false, Recorded.start input, #[]⟩) ∧
    (∀ (source : Source) (here : source.text.Pos) (tokenStart : Nat) (endMark : Option Nat)
      (kind? : Option Token.Kind) (flags : List Bool),
      ∃ (there : source.text.Pos) (result : Scan SourceInput),
        Disciplined ⟨true :: flags⟩ ⟨⟨source, here.offset.byteIdx⟩, tokenStart, endMark, kind?⟩
          result (source.text.extract here there).toList.length ∧
        here ≤ there ∧ result.input.cursor = ⟨source, there.offset.byteIdx⟩ ∧
        result.input.tokenStart = tokenStart ∧
        (result.found = true →
          atEnd result.input = .ok false ∧ lookahead result.input = .ok '}' ∧
            result.input.endMark = some result.input.pos)) ∧
    ∀ host : Host, host.endAt - host.pos < offsetLimit → ∀ flags : List Bool,
      ∃ (steps : Nat) (result : Scan Host),
        Disciplined ⟨true :: flags⟩ host result steps ∧
        result.input.pos = host.pos + steps ∧ result.input.tokenStart = host.tokenStart ∧
        (result.found = true →
          atEnd result.input = .ok false ∧ lookahead result.input = .ok '}' ∧
            result.input.endMark = some result.input.pos) := by
  refine ⟨?_, ?_, ?_⟩
  · intro σ _ input valid hvalid
    exact ⟨scan_of_head?_ne hvalid input, scan_of_head?_ne hvalid (Recorded.start input)⟩
  · exact disciplined_source
  · intro host hlimit flags
    exact disciplined_host hlimit flags

/-- A host that says that its input ends before its closing brace, with a unit in the lookahead that
is none of its own. -/
theorem scan_keeps_discipline_before_end :
    let host : Host := { Host.start (Host.unitsOfText "ab\x7d") 0 (some 2) with lookahead := -1 }
    host.endAt - host.pos < offsetLimit ∧
      ∃ (steps : Nat) (result : Scan Host),
        Disciplined ⟨[true, false]⟩ host result steps ∧
        result.input.pos = host.pos + steps ∧ result.input.tokenStart = host.tokenStart ∧
        (result.found = true →
          atEnd result.input = .ok false ∧ lookahead result.input = .ok '}' ∧
            result.input.endMark = some result.input.pos) := by
  intro host
  have hlimit : host.endAt - host.pos < offsetLimit := by decide
  exact ⟨hlimit, scan_keeps_discipline.2.2 host hlimit [false]⟩

end Block

end AsmBlock
