import AsmBlock.Proofs.Block.BraceTrace

/-!
# Going on behind a failed scan

What a failed scan reports is all that the text scanned so far has to say about the text behind it.
`stub` reads off a report a short text, of opening braces and at most one more character, at whose
end a scan stands as it stood at the end of the text.  Whatever is put behind the text is scanned as
it is behind the stub (`scan_resumes`).
-/

namespace AsmBlock

namespace Block

/-! ## The stub of a report -/

/-- The changes of depth among the reported events. -/
def traces (events : List Log.Event) : List Log.Event :=
  events.filter fun event => event.level = .trace

/-- The depth that the last change of depth led to, 0 if there was none. -/
def lastDepth (events : List Log.Event) : Nat := ((traces events).getLast?.map depthOf).getD 0

/-- The character that opens what a failed scan reports as not closed. -/
def opener : Log.Event → List Char
  | .stringUnterminated => ['"']
  | .commentUnterminated => [';']
  | _ => []

/-- The text that stands for one on which a scan failed: as many opening braces as are open, and the
opener of the string or comment in which the text ended. -/
def stub (events : List Log.Event) : List Char :=
  List.replicate (lastDepth events) '{' ++ (events.getLast?.map opener).getD []

/-- The events of a number of opening braces in a row. -/
def opened (depth count : Nat) : List Log.Event :=
  (List.range' (depth + 1) count).map .braceOpened

theorem level_of_mem_opened {depth count : Nat} {event : Log.Event}
    (h : event ∈ opened depth count) : event.level = .trace := by
  obtain ⟨_, -, rfl⟩ := List.mem_map.mp h
  rfl

namespace State

/-- The text that leads from the start to a state. -/
def stub (state : State) : List Char :=
  List.replicate state.depth '{' ++ opener state.endEvent

theorem passes_replicate (depth count : Nat) :
    (State.mk .code depth).Passes (List.replicate count '{') ⟨.code, depth + count⟩
      (opened depth count) := by
  induction count generalizing depth with
  | zero => exact passes_nil _
  | succ count ih =>
    have hinner := ih (depth + 1)
    rw [Nat.add_assoc, Nat.add_comm 1] at hinner
    exact hinner.cons_event rfl

theorem passes_opener (state : State) :
    (State.mk .code state.depth).Passes (opener state.endEvent) state [] := by
  rcases state with ⟨context, depth⟩
  cases context <;> rfl

theorem passes_stub (state : State) :
    start.Passes state.stub state (opened 0 state.depth) := by
  have hbraces := passes_replicate 0 state.depth
  rw [Nat.zero_add] at hbraces
  have hall := hbraces.append state.passes_opener
  rwa [List.append_nil] at hall

/-! ## The length of a stub -/

theorem size_stub (state : State) :
    Utf8.size state.stub = state.depth + (opener state.endEvent).length := by
  have hbraces : ∀ count, Utf8.size (List.replicate count '{') = count := by
    intro count
    induction count with
    | zero => rfl
    | succ count ih =>
      rw [List.replicate_succ, Utf8.size_cons, ih, Nat.add_comm]
      rfl
  rw [stub, Utf8.size_append, hbraces]
  rcases state with ⟨context, depth⟩
  cases context <;> rfl

theorem size_stub_of_move {state after : State} {char : CharClass} {event? : Option Log.Event}
    (h : state.move char = .next after event?) :
    Utf8.size after.stub ≤ Utf8.size state.stub + 1 := by
  rw [size_stub, size_stub]
  rcases state with ⟨context, depth⟩
  cases context <;> cases char <;>
    try (cases h; simp only [endEvent, opener, List.length_cons, List.length_nil]; omega)
  cases depth with
  | zero => cases h
  | succ depth =>
    cases h
    simp only [endEvent, opener, List.length_nil]
    omega

/-- A stub is no longer than the text it stands for. -/
theorem size_stub_walk_le (state : State) (chars : List Char) :
    Utf8.size (state.walk chars).state.stub ≤ Utf8.size state.stub + Utf8.size chars := by
  induction chars generalizing state with
  | nil => exact Nat.le_refl _
  | cons char chars ih =>
    have hchar := char.utf8Size_pos
    rw [Utf8.size_cons]
    cases hmove : state.move (.ofChar char) with
    | found =>
      rw [walk_cons_of_found hmove]
      exact Nat.le_add_right _ _
    | next after event? =>
      have hstep := size_stub_of_move hmove
      have hrest := ih after
      rw [walk_cons_of_next hmove]
      simp only [Walk.cons]
      omega

end State

/-! ## Reports and their stubs -/

section Report

variable (chars : List Char)

/-- The last change of depth leads to the depth at which a walk ends. -/
theorem depthOf_getLast?_walk :
    ((State.start.walk chars).events.getLast?.map depthOf).getD 0 =
      (State.start.walk chars).state.depth := by
  obtain ⟨depths, hclimb, hevents⟩ := State.climb_walk .start chars
  rw [hevents, ← List.getLast?_map, hclimb.map_depthOf]
  exact hclimb.last_eq.symm

theorem traces_report : traces (State.start.walk chars).report = (State.start.walk chars).events :=
  State.filter_report_walk .start chars

theorem lastDepth_report :
    lastDepth (State.start.walk chars).report = (State.start.walk chars).state.depth := by
  rw [lastDepth, traces_report, depthOf_getLast?_walk]

/-- The report of a walk that finds no closing brace has the stub of the state at its end. -/
theorem stub_report {chars : List Char} (h : (State.start.walk chars).found = false) :
    stub (State.start.walk chars).report = (State.start.walk chars).state.stub := by
  have houtcome : (State.start.walk chars).outcome = (State.start.walk chars).state.endEvent := by
    simp [Walk.outcome, h]
  rw [stub, lastDepth_report, Walk.report, List.getLast?_concat, houtcome]
  rfl

end Report

/-! ## Scans of longer texts -/

/-- A scan of a source from an offset finds a token, or none, and reports events. -/
structure Scans (source : Source) (start : Nat) (valid : TokenFlags) (token? : Option Token)
    (events : List Log.Event) : Prop where
  token : scanSource source start valid = .ok token?
  report : ∃ result, scan valid (SourceInput.ofCursor (source.cursor start)) = .ok result ∧
    result.events.toList = events

section Scans

variable {source : Source} {start gap : Nat} {rest : List Char}

theorem scans_of_ahead (h : source.Ahead start gap rest) (hstart : start ≤ source.size)
    (flags : List Bool) :
    Scans source start ⟨true :: flags⟩ (if (State.start.walk rest).found then
      some ⟨.llvmIr, start, start + gap + Utf8.size (rest.take (State.start.walk rest).length)⟩
    else none) (State.start.walk rest).report := by
  have hmin : min start source.size = start := Nat.min_eq_left hstart
  have hahead : source.Ahead (min start source.size) gap rest := hmin.symm ▸ h
  have htoken := scanSource_of_ahead hahead flags
  obtain ⟨result, hresult, -, -, hevents⟩ := exists_scan_of_ahead hahead flags
  rw [hmin] at htoken
  exact ⟨htoken, result, hresult, hevents⟩

/-- A scan that passes through the first part of a text goes on from the state it comes to. -/
theorem scans_of_passes {chars : List Char} (h : source.Ahead start gap (chars ++ rest))
    (hstart : start ≤ source.size) {last : State} {events : List Log.Event}
    (hpasses : State.start.Passes chars last events) (flags : List Bool) :
    Scans source start ⟨true :: flags⟩ (if (last.walk rest).found then
      some ⟨.llvmIr, start,
        start + gap + Utf8.size chars + Utf8.size (rest.take (last.walk rest).length)⟩
    else none) (events ++ (last.walk rest).report) := by
  have hscans := scans_of_ahead h hstart flags
  have hreport : (State.start.walk (chars ++ rest)).report = events ++ (last.walk rest).report := by
    rw [hpasses.walk_append]
    exact List.append_assoc _ _ _
  rw [hreport, hpasses.walk_append] at hscans
  simp only [List.take_length_add_append, Utf8.size_append, ← Nat.add_assoc] at hscans
  exact hscans

end Scans

/-- How the scan of a whole text compares with the scan of its end behind the stub of a report. -/
structure Resumes (source : Source) (report : List Log.Event) (wholeToken? resumedToken? :
    Option Token) (wholeEvents resumedEvents : List Log.Event) : Prop where
  /-- Both find the closing brace or none does, and it is equally far behind the text and the
  stub. -/
  stop : (wholeToken?.map fun token => token.stop + Utf8.size (stub report)) =
    resumedToken?.map fun token => token.stop + source.size
  /-- Behind the changes of depth that belong to the text and to the stub the events agree. -/
  events : ∃ first later, resumedEvents = first ++ later ∧ first.length = lastDepth report ∧
    (∀ event ∈ first, event.level = .trace) ∧ wholeEvents = traces report ++ later

section Resumption

variable {source whole : Source} {tail : String} (hwhole : whole.text = source.text ++ tail)
  {start gap : Nat} {rest : List Char} (hahead : source.Ahead start gap rest)
  (hstart : start ≤ source.size)

include hwhole

theorem size_append : whole.size = source.size + tail.utf8ByteSize := by
  rw [Source.size, hwhole, String.utf8ByteSize_append]
  rfl

include hahead hstart

/-- A scan that found its token finds the same in every longer text. -/
theorem scans_of_found (hfound : (State.start.walk rest).found = true) (flags : List Bool) :
    Scans whole start ⟨true :: flags⟩
      (some ⟨.llvmIr, start, start + gap + Utf8.size (rest.take (State.start.walk rest).length)⟩)
      (State.start.walk rest).report := by
  have hwalk : State.start.walk (rest ++ tail.toList) = State.start.walk rest := by
    rw [State.walk_append, Walk.andThen, if_pos hfound]
  have hle : start ≤ whole.size := by
    rw [size_append hwhole]
    omega
  have hscans := scans_of_ahead (hahead.append hwhole) hle flags
  rwa [hwalk, if_pos hfound,
    List.take_append_of_le_length (State.length_walk_le .start rest)] at hscans

/-- The stub of a failed scan does for the text behind what the scanned text does. -/
theorem scans_of_not_found (hfound : (State.start.walk rest).found = false) (flags : List Bool) :
    ∃ (resumed : Source) (wholeToken? resumedToken? : Option Token)
      (wholeEvents resumedEvents : List Log.Event),
      resumed.text = String.ofList (stub (State.start.walk rest).report) ++ tail ∧
      Scans whole start ⟨true :: flags⟩ wholeToken? wholeEvents ∧
      Scans resumed 0 ⟨true :: flags⟩ resumedToken? resumedEvents ∧
      Resumes source (State.start.walk rest).report wholeToken? resumedToken? wholeEvents
        resumedEvents := by
  have hpasses := State.passes_of_not_found hfound
  have hstub := (State.start.walk rest).state.passes_stub
  have hsize := State.size_stub_walk_le .start rest
  have hend := hahead.restAt.pos_add_size
  have hsum := size_append hwhole
  have hlimit := whole.size_lt_offsetLimit
  have hempty : Utf8.size State.start.stub = 0 := rfl
  have hfits : (String.ofList (State.start.walk rest).state.stub ++ tail).utf8ByteSize <
      offsetLimit := by
    rw [String.utf8ByteSize_append, Utf8.utf8ByteSize_ofList]
    omega
  have hwholeScans := scans_of_passes (hahead.append hwhole) (by omega) hpasses flags
  have hresumed : (Source.ofText _ hfits).RestAt 0
      ((State.start.walk rest).state.stub ++ tail.toList) := by
    have hall := (Source.ofText _ hfits).restAt_zero
    rwa [Source.text_ofText, String.toList_append, String.toList_ofList] at hall
  have hresumedScans := scans_of_passes hresumed.ahead (Nat.zero_le _) hstub flags
  rw [stub_report hfound]
  refine ⟨Source.ofText _ hfits, _, _, _, _, rfl, hwholeScans, hresumedScans, ?_, ?_⟩
  · rw [stub_report hfound, hend]
    split
    · simp only [Option.map_some]
      congr 1
      omega
    · rfl
  · refine ⟨_, _, rfl, ?_, ?_, ?_⟩
    · rw [lastDepth_report]
      simp [opened]
    · intro event hevent
      exact level_of_mem_opened hevent
    · rw [traces_report]

end Resumption

/-- **The report of a failed scan tells all about the text so far.**  When text is put behind a text
on which a scan failed, the scan goes on as it does behind the stub of its report, which is no
longer than the text.  When the scan found its token, the text behind does not matter. -/
theorem scan_resumes (source whole : Source) {tail : String}
    (hwhole : whole.text = source.text ++ tail) {start : Nat} (hstart : start ≤ source.size)
    (flags : List Bool) :
    ∃ (token? wholeToken? : Option Token) (events wholeEvents : List Log.Event),
      Scans source start ⟨true :: flags⟩ token? events ∧
      Scans whole start ⟨true :: flags⟩ wholeToken? wholeEvents ∧
      (token?.isSome → wholeToken? = token? ∧ wholeEvents = events) ∧
      (token? = none → ∃ (resumed : Source) (resumedToken? : Option Token)
        (resumedEvents : List Log.Event),
        resumed.text = String.ofList (stub events) ++ tail ∧
        Scans resumed 0 ⟨true :: flags⟩ resumedToken? resumedEvents ∧
        Resumes source events wholeToken? resumedToken? wholeEvents resumedEvents) := by
  obtain ⟨gap, rest, hahead⟩ := source.exists_ahead hstart
  have hscans := scans_of_ahead hahead hstart flags
  cases hfound : (State.start.walk rest).found with
  | true =>
    rw [if_pos hfound] at hscans
    refine ⟨_, _, _, _, hscans, scans_of_found hwhole hahead hstart hfound flags, ?_, ?_⟩
    · intro _
      exact ⟨rfl, rfl⟩
    · intro hnone
      cases hnone
  | false =>
    rw [if_neg (by simp [hfound])] at hscans
    obtain ⟨resumed, wholeToken?, resumedToken?, wholeEvents, resumedEvents, htext, hwholeScans,
      hresumedScans, hresumes⟩ := scans_of_not_found hwhole hahead hstart hfound flags
    refine ⟨_, _, _, _, hscans, hwholeScans, ?_, ?_⟩
    · intro hsome
      cases hsome
    · intro _
      exact ⟨resumed, resumedToken?, resumedEvents, htext, hresumedScans, hresumes⟩

/-- A text that ends in a string, and text that closes the string and two blocks behind it. -/
theorem scan_resumes_behind_string :
    (Source.ofText "a\x7b\"\"b\x7d\x7d" (by decide)).text =
      (Source.ofText "a\x7b\"" (by decide)).text ++ "\"b\x7d\x7d" ∧
    1 ≤ (Source.ofText "a\x7b\"" (by decide)).size ∧
    ∃ (token? wholeToken? : Option Token) (events wholeEvents : List Log.Event),
      Scans (Source.ofText "a\x7b\"" (by decide)) 1 ⟨[true]⟩ token? events ∧
      Scans (Source.ofText "a\x7b\"\"b\x7d\x7d" (by decide)) 1 ⟨[true]⟩ wholeToken? wholeEvents ∧
      (token?.isSome → wholeToken? = token? ∧ wholeEvents = events) ∧
      (token? = none → ∃ (resumed : Source) (resumedToken? : Option Token)
        (resumedEvents : List Log.Event),
        resumed.text = String.ofList (stub events) ++ "\"b\x7d\x7d" ∧
        Scans resumed 0 ⟨[true]⟩ resumedToken? resumedEvents ∧
        Resumes (Source.ofText "a\x7b\"" (by decide)) events wholeToken? resumedToken? wholeEvents
          resumedEvents) := by
  have htext : (Source.ofText "a\x7b\"\"b\x7d\x7d" (by decide)).text =
      (Source.ofText "a\x7b\"" (by decide)).text ++ "\"b\x7d\x7d" := by decide
  have hstart : 1 ≤ (Source.ofText "a\x7b\"" (by decide)).size := by decide
  exact ⟨htext, hstart, scan_resumes _ _ htext hstart []⟩

end Block

end AsmBlock
