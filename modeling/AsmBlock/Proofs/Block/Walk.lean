import AsmBlock.Block.Scan
import AsmBlock.Proofs.Input.Reading

/-!
# A scan as a walk over characters

`State.walk` is the scan as a function of the characters it meets.  It has no input, no faults and
no limit on the depth.  Walks compose (`walk_append`), and a scan of any input that yields the
characters is their walk (`run_of_reads`).
-/

namespace AsmBlock

namespace Block

/-! ## Steps without a limit -/

namespace State

/-- The step of a state at a character, with no limit on the depth. -/
def move (state : State) (char : CharClass) : Step :=
  match state.context, char with
  | .code, .quote => .next ⟨.string, state.depth⟩ none
  | .code, .semicolon => .next ⟨.comment, state.depth⟩ none
  | .code, .openBrace => .next ⟨.code, state.depth + 1⟩ (some (.braceOpened (state.depth + 1)))
  | .code, .closeBrace =>
    match state.depth with
    | 0 => .found
    | depth + 1 => .next ⟨.code, depth⟩ (some (.braceClosed depth))
  | .string, .quote => .next ⟨.code, state.depth⟩ none
  | .comment, .newline => .next ⟨.code, state.depth⟩ none
  | _, _ => .next state none

theorem step_eq_ok_move {state : State} (h : state.depth + 1 < offsetLimit) (char : CharClass) :
    state.step char = .ok (state.move char) := by
  rcases state with ⟨context, depth⟩
  cases context <;> cases char <;> try rfl
  · simp only [step, checkedAdd_of_lt h]
    rfl
  · cases depth <;> rfl

/-- The limit on the depth can only fault; it leads to no other step. -/
theorem move_of_step {state : State} {char : CharClass} {step : Step}
    (h : state.step char = .ok step) : state.move char = step := by
  rcases state with ⟨context, depth⟩
  cases context <;> cases char <;> try (cases h; rfl)
  · obtain ⟨_, hdepth, hnext⟩ := Fault.bind_eq_ok_iff.mp h
    obtain ⟨rfl, -⟩ := checkedAdd_eq_ok_iff.mp hdepth
    cases hnext
    rfl
  · cases depth <;> (cases h; rfl)

theorem depth_le_of_move {state after : State} {char : CharClass} {event? : Option Log.Event}
    (h : state.move char = .next after event?) : after.depth ≤ state.depth + 1 := by
  rcases state with ⟨context, depth⟩
  cases context <;> cases char <;> try (cases h; simp only [Nat.le_add_right, Nat.le_refl])
  cases depth with
  | zero => cases h
  | succ depth => cases h; simp only; omega

theorem traced_of_move {state after : State} {char : CharClass} {event : Log.Event}
    (h : state.move char = .next after (some event)) :
    event.level = .trace ∧ event.target = "autolang_scanner::llvm_ir" := by
  rcases state with ⟨context, depth⟩
  cases context <;> cases char <;> try cases h
  · exact ⟨rfl, rfl⟩
  · cases depth <;> cases h
    exact ⟨rfl, rfl⟩

end State

/-! ## Walks -/

/-- What a scan makes of a list of characters. -/
structure Walk where
  /-- Whether the closing brace is among them. -/
  found : Bool
  /-- The number of characters in front of the closing brace, or of all. -/
  length : Nat
  state : State
  events : List Log.Event
  deriving DecidableEq, Repr

namespace Walk

def cons (event? : Option Log.Event) (walk : Walk) : Walk :=
  { walk with length := walk.length + 1, events := event?.toList ++ walk.events }

/-- A walk, and a second one from where the first runs out of characters. -/
def andThen (first second : Walk) : Walk :=
  if first.found then first
  else { second with
    length := first.length + second.length
    events := first.events ++ second.events }

def outcome (walk : Walk) : Log.Event := if walk.found then .blockMatched else walk.state.endEvent

/-- All that is reported: the changes of depth and how the walk ended. -/
def report (walk : Walk) : List Log.Event := walk.events ++ [walk.outcome]

theorem level_outcome (walk : Walk) : walk.outcome.level = .debug := by
  unfold outcome State.endEvent
  split
  · rfl
  · split <;> rfl

theorem target_outcome (walk : Walk) : walk.outcome.target = "autolang_scanner::llvm_ir" := by
  unfold outcome State.endEvent
  split
  · rfl
  · split <;> rfl

theorem outcome_eq_blockMatched_iff {walk : Walk} :
    walk.outcome = .blockMatched ↔ walk.found = true := by
  unfold outcome State.endEvent
  split
  · next hfound => simp [hfound]
  · next hfound =>
    split <;> simp [hfound]

theorem outcome_eq_inputEnded {walk : Walk} {depth : Nat} (h : walk.outcome = .inputEnded depth) :
    walk.state.depth = depth := by
  unfold outcome State.endEvent at h
  split at h
  · cases h
  · split at h <;> cases h
    rfl

theorem report_cons (event? : Option Log.Event) (walk : Walk) :
    (walk.cons event?).report = event?.toList ++ walk.report :=
  List.append_assoc _ _ _

theorem append_report_cons (event? : Option Log.Event) (walk : Walk) (events : Array Log.Event) :
    events ++ (walk.cons event?).report.toArray =
      events ++ event?.toArray ++ walk.report.toArray := by
  rw [report_cons]
  cases event? <;> simp

theorem cons_andThen (event? : Option Log.Event) (first second : Walk) :
    (first.cons event?).andThen second = (first.andThen second).cons event? := by
  cases hfound : first.found with
  | true => simp [andThen, cons, hfound]
  | false =>
    simp [andThen, cons, hfound]
    omega

end Walk

def State.walk (state : State) : List Char → Walk
  | [] => ⟨false, 0, state, []⟩
  | char :: chars =>
    match state.move (.ofChar char) with
    | .found => ⟨true, 0, state, []⟩
    | .next after event? => (after.walk chars).cons event?

namespace State

variable {state after : State} {event? : Option Log.Event} {char : Char} {chars : List Char}

@[simp] theorem walk_nil (state : State) : state.walk [] = ⟨false, 0, state, []⟩ := rfl

theorem walk_cons_of_found (h : state.move (.ofChar char) = .found) :
    state.walk (char :: chars) = ⟨true, 0, state, []⟩ := by
  rw [walk, h]

theorem walk_cons_of_next (h : state.move (.ofChar char) = .next after event?) :
    state.walk (char :: chars) = (after.walk chars).cons event? := by
  rw [walk, h]

/-- A walk over two lists goes on behind the first where the first ends it. -/
theorem walk_append (state : State) (front back : List Char) :
    state.walk (front ++ back) =
      (state.walk front).andThen ((state.walk front).state.walk back) := by
  induction front generalizing state with
  | nil => simp [Walk.andThen]
  | cons char front ih =>
    rw [List.cons_append]
    cases hmove : state.move (.ofChar char) with
    | found =>
      rw [walk_cons_of_found hmove, walk_cons_of_found hmove]
      rfl
    | next after event? =>
      rw [walk_cons_of_next hmove, walk_cons_of_next hmove, ih, Walk.cons_andThen]
      rfl

theorem length_walk_le (state : State) (chars : List Char) :
    (state.walk chars).length ≤ chars.length := by
  induction chars generalizing state with
  | nil => exact Nat.le_refl 0
  | cons char chars ih =>
    cases hmove : state.move (.ofChar char) with
    | found =>
      rw [walk_cons_of_found hmove]
      exact Nat.zero_le _
    | next after event? =>
      rw [walk_cons_of_next hmove]
      exact Nat.succ_le_succ (ih after)

/-- A walk that finds no closing brace consumes every character. -/
theorem length_walk_of_not_found (h : (state.walk chars).found = false) :
    (state.walk chars).length = chars.length := by
  induction chars generalizing state with
  | nil => rfl
  | cons char chars ih =>
    cases hmove : state.move (.ofChar char) with
    | found =>
      rw [walk_cons_of_found hmove] at h
      cases h
    | next after event? =>
      rw [walk_cons_of_next hmove] at h ⊢
      exact congrArg (· + 1) (ih h)

theorem traced_of_mem_events {event : Log.Event} (h : event ∈ (state.walk chars).events) :
    event.level = .trace ∧ event.target = "autolang_scanner::llvm_ir" := by
  induction chars generalizing state with
  | nil => cases h
  | cons char chars ih =>
    cases hmove : state.move (.ofChar char) with
    | found =>
      rw [walk_cons_of_found hmove] at h
      cases h
    | next after event? =>
      rw [walk_cons_of_next hmove] at h
      rcases List.mem_append.mp h with h | h
      · rw [Option.mem_toList.mp h] at hmove
        exact traced_of_move hmove
      · exact ih h

theorem target_of_mem_report {event : Log.Event} (h : event ∈ (state.walk chars).report) :
    event.target = "autolang_scanner::llvm_ir" := by
  rcases List.mem_append.mp h with h | h
  · exact (traced_of_mem_events h).2
  · rw [List.mem_singleton.mp h]
    exact Walk.target_outcome _

theorem filter_report_walk (state : State) (chars : List Char) :
    ((state.walk chars).report.filter fun event => event.level = .trace) =
      (state.walk chars).events := by
  have hevents : ((state.walk chars).events.filter fun event => event.level = .trace) =
      (state.walk chars).events := by
    rw [List.filter_eq_self]
    intro event hevent
    exact decide_eq_true (traced_of_mem_events hevent).1
  have houtcome := (state.walk chars).level_outcome
  rw [Walk.report, List.filter_append, hevents]
  simp [houtcome]

end State

/-! ## Scans are walks -/

section Scans

variable {σ : Type} [Input σ]

open Input

/-- What a scan leaves behind that walked and stopped at `stop`. -/
def Walk.toScan (walk : Walk) (events : Array Log.Event) (stop : σ) : Scan σ where
  found := walk.found
  input := if walk.found then markEnd (recognize .llvmIr stop) else stop
  events := events ++ walk.report.toArray

theorem Walk.toScan_of_found {walk : Walk} (h : walk.found = true) (events : Array Log.Event)
    (stop : σ) : walk.toScan events stop =
      ⟨true, markEnd (recognize .llvmIr stop), events ++ walk.report.toArray⟩ := by
  rw [toScan, if_pos h, h]

theorem Walk.toScan_of_not_found {walk : Walk} (h : walk.found = false)
    (events : Array Log.Event) (stop : σ) :
    walk.toScan events stop = ⟨false, stop, events ++ walk.report.toArray⟩ := by
  rw [toScan, if_neg (by simp [h]), h]

theorem Walk.toScan_cons (event? : Option Log.Event) (walk : Walk) (events : Array Log.Event)
    (stop : σ) :
    (walk.cons event?).toScan events stop = walk.toScan (events ++ event?.toArray) stop := by
  simp only [toScan, append_report_cons]
  rfl

/-- The scan of an input that yields `chars` up to its end is the walk over them. -/
theorem Scan.run_of_reads {input last : σ} {chars : List Char} (hreads : Reads input chars last)
    (hend : atEnd last = .ok true) {state : State}
    (hdepth : state.depth + chars.length < offsetLimit) (events : Array Log.Event) :
    ∃ stop, Reads input (chars.take (state.walk chars).length) stop ∧
      run state events input = .ok ((state.walk chars).toScan events stop) := by
  induction hreads generalizing state events with
  | nil input =>
    refine ⟨input, .nil input, ?_⟩
    rw [run_of_atEnd hend]
    simp [Walk.toScan, Walk.report, Walk.outcome]
  | @cons input next last char chars hmore hchar hnext hrest ih =>
    rw [List.length_cons] at hdepth
    have hstep := state.step_eq_ok_move (by omega) (.ofChar char)
    cases hmove : state.move (.ofChar char) with
    | found =>
      rw [hmove] at hstep
      refine ⟨input, ?_, ?_⟩
      · rw [State.walk_cons_of_found hmove]
        exact .nil input
      · rw [run_of_found hmore hchar hstep, State.walk_cons_of_found hmove]
        simp [Walk.toScan, Walk.report, Walk.outcome]
    | next after event? =>
      rw [hmove] at hstep
      have hafter := State.depth_le_of_move hmove
      -- a character raises the depth by one at most, so the text is too short for an overflow
      have hdepth' : after.depth + chars.length < offsetLimit := by omega
      obtain ⟨stop, hstop, hrun⟩ := ih hend hdepth' (events ++ event?.toArray)
      refine ⟨stop, ?_, ?_⟩
      · rw [State.walk_cons_of_next hmove]
        exact .cons hmore hchar hnext hstop
      · rw [run_of_next hmore hchar hstep hnext, hrun, State.walk_cons_of_next hmove,
          Walk.toScan_cons]

/-- What a scan that returned has reported is the report of a walk, whatever characters the input
went on to yield. -/
theorem Scan.exists_walk_of_run {state : State} {events : Array Log.Event} {input : σ}
    {result : Scan σ} (h : run state events input = .ok result) :
    ∃ chars, result.found = (state.walk chars).found ∧
      result.events = events ++ (state.walk chars).report.toArray := by
  fun_induction run state events input with
  | case1 | case3 | case4 | case6 => cases h
  | case2 state events input =>
    cases h
    exact ⟨[], rfl, rfl⟩
  | case5 state events input _ char _ hstep =>
    cases h
    refine ⟨[char], ?_⟩
    rw [State.walk_cons_of_found (State.move_of_step hstep)]
    exact ⟨rfl, rfl⟩
  | case7 state events input _ char _ after event? hstep advanced _ _ ih =>
    obtain ⟨chars, hfound, hevents⟩ := ih h
    refine ⟨char :: chars, ?_⟩
    rw [State.walk_cons_of_next (State.move_of_step hstep), Walk.append_report_cons]
    exact ⟨hfound, hevents⟩

theorem exists_walk_of_scan {valid : TokenFlags} (hvalid : valid.contains .llvmIr = true)
    {input : σ} {result : Scan σ} (h : scan valid input = .ok result) :
    ∃ chars, result.found = (State.start.walk chars).found ∧
      result.events.toList = (State.start.walk chars).report := by
  rw [scan, if_pos hvalid] at h
  obtain ⟨chars, hfound, hevents⟩ := Scan.exists_walk_of_run h
  exact ⟨chars, hfound, by simp [hevents]⟩

end Scans

end Block

end AsmBlock
