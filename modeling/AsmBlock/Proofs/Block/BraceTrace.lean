import AsmBlock.Proofs.Block.Recognition

/-!
# The trace of a scan

The braces of a text that count are those outside strings and comments (`liveBraces`).  A scan
traces one event for each of them, with the number of braces left open behind it
(`State.climb_walk`), and then reports how it ended.
-/

namespace AsmBlock

namespace Block

/-! ## Live braces -/

theorem length_tail_dropWhile_le (inside : Char → Bool) (chars : List Char) :
    (chars.dropWhile inside).tail.length ≤ chars.length := by
  have hdrop := (List.dropWhile_suffix inside (l := chars)).length_le
  rw [List.length_tail]
  omega

/-- The braces of a text outside strings and comments. -/
def liveBraces : List Char → List Char
  | [] => []
  | char :: chars =>
    if char = '"' then liveBraces (chars.dropWhile (· ≠ '"')).tail
    else if char = ';' then liveBraces (chars.dropWhile (· ≠ '\n')).tail
    else if char = '{' ∨ char = '}' then char :: liveBraces chars
    else liveBraces chars
termination_by chars => chars.length
decreasing_by
  · exact Nat.lt_succ_of_le (length_tail_dropWhile_le _ chars)
  · exact Nat.lt_succ_of_le (length_tail_dropWhile_le _ chars)
  · exact Nat.lt_succ_self _
  · exact Nat.lt_succ_self _

/-- The text behind what is left of a string or comment. -/
def Context.leave (context : Context) (chars : List Char) : List Char :=
  match context.terminator? with
  | none => chars
  | some stop => (chars.dropWhile (· ≠ stop)).tail

theorem liveBraces_nil : liveBraces [] = [] := by
  rw [liveBraces]

theorem liveBraces_leave_nil (context : Context) : liveBraces (context.leave []) = [] := by
  cases context <;> exact liveBraces_nil

/-! ## Depths -/

/-- From a depth, braces lead through the listed depths to the last. -/
inductive Climb : Nat → List Char → List Nat → Nat → Prop where
  | nil (depth : Nat) : Climb depth [] [] depth
  | opened {depth last : Nat} {braces : List Char} {depths : List Nat}
      (h : Climb (depth + 1) braces depths last) :
      Climb depth ('{' :: braces) ((depth + 1) :: depths) last
  | closed {depth last : Nat} {braces : List Char} {depths : List Nat}
      (h : Climb depth braces depths last) :
      Climb (depth + 1) ('}' :: braces) (depth :: depths) last

namespace Climb

variable {depth last : Nat} {braces : List Char} {depths : List Nat}

theorem length_eq (h : Climb depth braces depths last) : depths.length = braces.length := by
  induction h with
  | nil => rfl
  | opened _ ih | closed _ ih => exact congrArg (· + 1) ih

theorem count_take (h : Climb depth braces depths last) {i : Nat} (hi : i < depths.length) :
    depth + (braces.take (i + 1)).count '{' = depths[i] + (braces.take (i + 1)).count '}' := by
  induction h generalizing i with
  | nil => cases hi
  | @opened depth last braces depths _ ih =>
    cases i with
    | zero => simp
    | succ i =>
      have hrest := ih (i := i) (by simpa using hi)
      rw [List.take_succ_cons, List.getElem_cons_succ, List.count_cons_self,
        List.count_cons_of_ne (by decide)]
      omega
  | @closed depth last braces depths _ ih =>
    cases i with
    | zero => simp
    | succ i =>
      have hrest := ih (i := i) (by simpa using hi)
      rw [List.take_succ_cons, List.getElem_cons_succ, List.count_cons_self,
        List.count_cons_of_ne (by decide)]
      omega

theorem count_eq (h : Climb depth braces depths last) :
    depth + braces.count '{' = last + braces.count '}' := by
  induction h with
  | nil => rfl
  | opened _ ih =>
    rw [List.count_cons_self, List.count_cons_of_ne (by decide)]
    omega
  | closed _ ih =>
    rw [List.count_cons_self, List.count_cons_of_ne (by decide)]
    omega

theorem last_eq (h : Climb depth braces depths last) : last = depths.getLast?.getD depth := by
  induction h with
  | nil => rfl
  | opened _ ih | closed _ ih =>
    rw [List.getLast?_cons]
    exact ih

/-- Every step of a climb is by one: the first, and those between neighbours. -/
theorem getElem_zero (h : Climb depth braces depths last) (hpos : 0 < depths.length) :
    depths[0] = depth + 1 ∨ depth = depths[0] + 1 := by
  cases h with
  | nil => cases hpos
  | opened _ => exact .inl rfl
  | closed _ => exact .inr rfl

theorem getElem_succ (h : Climb depth braces depths last) {i : Nat} (hi : i + 1 < depths.length) :
    depths[i + 1] = depths[i] + 1 ∨ depths[i] = depths[i + 1] + 1 := by
  induction h generalizing i with
  | nil => cases hi
  | opened hrest ih | closed hrest ih =>
    cases i with
    | zero => exact hrest.getElem_zero (by simpa using hi)
    | succ i => exact ih (by simpa using hi)

end Climb

/-! ## The events of a climb -/

/-- The event for a brace that leads to a depth. -/
def braceEvent (brace : Char) (depth : Nat) : Log.Event :=
  if brace = '{' then .braceOpened depth else .braceClosed depth

/-- The depth that a change of depth leads to. -/
def depthOf : Log.Event → Nat
  | .braceOpened depth | .braceClosed depth => depth
  | _ => 0

@[simp] theorem depthOf_braceEvent (brace : Char) (depth : Nat) :
    depthOf (braceEvent brace depth) = depth := by
  unfold braceEvent
  split <;> rfl

theorem message_braceEvent (brace : Char) (depth : Nat) : (braceEvent brace depth).message =
    if brace = '{' then "llvm_ir: open brace" else "llvm_ir: close brace" := by
  unfold braceEvent
  split <;> rfl

theorem level_braceEvent (brace : Char) (depth : Nat) :
    (braceEvent brace depth).level = .trace := by
  unfold braceEvent
  split <;> rfl

namespace Climb

variable {depth last : Nat} {braces : List Char} {depths : List Nat}

theorem level_of_mem (h : Climb depth braces depths last) :
    ∀ event ∈ List.zipWith braceEvent braces depths, event.level = .trace := by
  induction h with
  | nil => simp
  | opened _ ih | closed _ ih =>
    intro event hevent
    rcases List.mem_cons.mp hevent with rfl | hrest
    · exact level_braceEvent _ _
    · exact ih event hrest

theorem map_depthOf (h : Climb depth braces depths last) :
    (List.zipWith braceEvent braces depths).map depthOf = depths := by
  induction h with
  | nil => rfl
  | opened _ ih | closed _ ih => simp [ih]

theorem countP_opened (h : Climb depth braces depths last) :
    ((List.zipWith braceEvent braces depths).countP fun event =>
      event.message = "llvm_ir: open brace") = braces.count '{' := by
  induction h with
  | nil => rfl
  | opened _ ih | closed _ ih => simp [message_braceEvent, ih]

theorem countP_closed (h : Climb depth braces depths last) :
    ((List.zipWith braceEvent braces depths).countP fun event =>
      event.message = "llvm_ir: close brace") = braces.count '}' := by
  induction h with
  | nil => rfl
  | opened _ ih | closed _ ih => simp [message_braceEvent, ih]

end Climb

theorem foldr_max_max (a b : Nat) (depths : List Nat) :
    depths.foldr max (max a b) = max (depths.foldr max a) b := by
  induction depths with
  | nil => rfl
  | cons depth depths ih => rw [List.foldr_cons, List.foldr_cons, ih, Nat.max_assoc]

/-- The greatest depth in a body lies above the depth at which it is entered by its nesting. -/
theorem Body.foldr_max_events (body : Body) (depth : Nat) :
    ((body.events depth).map depthOf).foldr max depth = depth + body.nesting := by
  induction body generalizing depth with
  | nil => rfl
  | plain _ _ _ ih | string _ _ _ ih | comment _ _ _ ih => exact ih depth
  | braces inner rest ihinner ihrest =>
    have hinner := ihinner (depth + 1)
    have hrest := ihrest depth
    simp only [events, nesting, List.map_cons, List.map_append, List.foldr_cons, List.foldr_append,
      depthOf, hrest, Nat.max_eq_right (Nat.le_add_right depth rest.nesting)]
    rw [Nat.max_comm, ← foldr_max_max, Nat.max_comm, foldr_max_max, hinner]
    omega

/-! ## Walks climb -/

namespace Context

variable {context : Context} {stop : Char} (hstop : context.terminator? = some stop)
  (chars : List Char)

include hstop

theorem leave_terminator : context.leave (stop :: chars) = chars := by
  simp [leave, hstop]

theorem leave_of_ne_terminator {char : Char} (h : char ≠ stop) :
    context.leave (char :: chars) = context.leave chars := by
  simp [leave, hstop, h]

end Context

namespace State

variable {state after : State} {event? : Option Log.Event} {char : Char}

/-- A step over a character that is no live brace leaves the depth and the live braces ahead.  A
step over a live brace reports the depth behind it. -/
theorem liveBraces_of_move (h : state.move (.ofChar char) = .next after event?)
    (chars : List Char) :
    (event? = none ∧ after.depth = state.depth ∧
      liveBraces (state.context.leave (char :: chars)) = liveBraces (after.context.leave chars)) ∨
    ∃ brace, event? = some (braceEvent brace after.depth) ∧
      liveBraces (state.context.leave (char :: chars)) =
        brace :: liveBraces (after.context.leave chars) ∧
      (brace = '{' ∧ after.depth = state.depth + 1 ∨
        brace = '}' ∧ state.depth = after.depth + 1) := by
  rcases state with ⟨context, depth⟩
  cases hstop : context.terminator? with
  | some stop =>
    left
    by_cases hchar : char = stop
    · subst hchar
      rw [move_terminator hstop] at h
      cases h
      exact ⟨rfl, rfl, congrArg liveBraces (Context.leave_terminator hstop chars)⟩
    · rw [move_of_ne_terminator hstop hchar] at h
      cases h
      exact ⟨rfl, rfl, congrArg liveBraces (Context.leave_of_ne_terminator hstop chars hchar)⟩
  | none =>
    obtain rfl : context = .code := by cases context <;> first | rfl | cases hstop
    have hcode : Context.code.leave (char :: chars) = char :: chars := rfl
    rw [hcode, liveBraces]
    by_cases hquote : char = '"'
    · subst hquote
      cases h
      exact .inl ⟨rfl, rfl, rfl⟩
    by_cases hsemicolon : char = ';'
    · subst hsemicolon
      cases h
      exact .inl ⟨rfl, rfl, rfl⟩
    by_cases hopen : char = '{'
    · subst hopen
      cases h
      exact .inr ⟨'{', rfl, rfl, .inl ⟨rfl, rfl⟩⟩
    by_cases hclose : char = '}'
    · subst hclose
      cases depth with
      | zero => cases h
      | succ depth =>
        cases h
        exact .inr ⟨'}', rfl, rfl, .inr ⟨rfl, rfl⟩⟩
    · rw [move_code_of_plain (by simp [hquote, hsemicolon, hopen, hclose])] at h
      cases h
      rw [if_neg hquote, if_neg hsemicolon, if_neg (by simp [hopen, hclose])]
      exact .inl ⟨rfl, rfl, rfl⟩

/-- A walk climbs over the live braces of what it consumes, and reports its depths. -/
theorem climb_walk (state : State) (chars : List Char) : ∃ depths,
    Climb state.depth
      (liveBraces (state.context.leave (chars.take (state.walk chars).length))) depths
      (state.walk chars).state.depth ∧
    (state.walk chars).events = List.zipWith braceEvent
      (liveBraces (state.context.leave (chars.take (state.walk chars).length))) depths := by
  induction chars generalizing state with
  | nil =>
    refine ⟨[], ?_, ?_⟩
    · rw [List.take_nil, liveBraces_leave_nil]
      exact .nil _
    · rw [List.zipWith_nil_right]
      rfl
  | cons char chars ih =>
    cases hmove : state.move (.ofChar char) with
    | found =>
      rw [walk_cons_of_found hmove]
      refine ⟨[], ?_, ?_⟩
      · rw [List.take_zero, liveBraces_leave_nil]
        exact .nil _
      · rw [List.zipWith_nil_right]
    | next after event? =>
      obtain ⟨depths, hclimb, hevents⟩ := ih after
      rw [walk_cons_of_next hmove]
      simp only [Walk.cons, List.take_succ_cons, hevents]
      rcases liveBraces_of_move hmove (chars.take (after.walk chars).length) with
        ⟨rfl, hdepth, hlive⟩ | ⟨brace, rfl, hlive, hbrace⟩
      · rw [hlive, ← hdepth]
        exact ⟨depths, hclimb, rfl⟩
      · rw [hlive]
        refine ⟨after.depth :: depths, ?_, rfl⟩
        rcases hbrace with ⟨rfl, hdepth⟩ | ⟨rfl, hdepth⟩
        · rw [hdepth] at hclimb ⊢
          exact .opened hclimb
        · rw [hdepth]
          exact .closed hclimb

end State

/-! ## The trace of a scan -/

/-- A trace of a text has one event for each live brace.  The event tells the depth, which is the
number of live braces opened so far less the number of those closed. -/
structure IsTrace (chars : List Char) (depths : List Nat) (trace : List Log.Event) : Prop where
  length_eq : depths.length = (liveBraces chars).length
  events : trace = List.zipWith braceEvent (liveBraces chars) depths
  level : ∀ event ∈ trace, event.level = .trace
  depth : ∀ (i : Nat) (hi : i < depths.length), ((liveBraces chars).take (i + 1)).count '{' =
    depths[i] + ((liveBraces chars).take (i + 1)).count '}'
  first : ∀ hpos : 0 < depths.length, depths[0] = 1
  neighbours : ∀ (i : Nat) (hi : i + 1 < depths.length),
    depths[i + 1] = depths[i] + 1 ∨ depths[i] = depths[i + 1] + 1

/-- The event that ends a scan says whether the closing brace was found.  If it was, the text is a
body whose live braces are all closed, and the greatest depth is the nesting of that body. -/
structure IsOutcome (chars : List Char) (depths : List Nat) (trace : List Log.Event) (found : Bool)
    (outcome : Log.Event) : Prop where
  level : outcome.level = .debug
  matched_iff : outcome = .blockMatched ↔ found = true
  last : found = true → depths.getLast?.getD 0 = 0
  balanced : found = true → (trace.countP fun event => event.message = "llvm_ir: open brace") =
    trace.countP fun event => event.message = "llvm_ir: close brace"
  body : found = true → ∃ body : Body, body.chars = chars
  nesting : found = true → ∀ body : Body, body.chars = chars → depths.foldr max 0 = body.nesting
  inputEnded : ∀ depth, outcome = .inputEnded depth → depth = depths.getLast?.getD 0

section Trace

variable {chars : List Char} {depths : List Nat}

theorem Climb.isTrace {last : Nat} (h : Climb 0 (liveBraces chars) depths last) :
    IsTrace chars depths (List.zipWith braceEvent (liveBraces chars) depths) where
  length_eq := h.length_eq
  events := rfl
  level := h.level_of_mem
  depth := by
    intro i hi
    have hcount := h.count_take hi
    omega
  first := by
    intro hpos
    have hstep := h.getElem_zero hpos
    omega
  neighbours := fun _ hi => h.getElem_succ hi

theorem isOutcome_walk
    (hclimb : Climb 0 (liveBraces (chars.take (State.start.walk chars).length)) depths
      (State.start.walk chars).state.depth)
    (hevents : (State.start.walk chars).events =
      List.zipWith braceEvent (liveBraces (chars.take (State.start.walk chars).length)) depths) :
    IsOutcome (chars.take (State.start.walk chars).length) depths (State.start.walk chars).events
      (State.start.walk chars).found (State.start.walk chars).outcome := by
  have hlast := hclimb.last_eq
  refine ⟨Walk.level_outcome _, Walk.outcome_eq_blockMatched_iff, ?_, ?_, ?_, ?_, ?_⟩
  · intro hfound
    rw [← hlast, state_walk_of_found hfound]
    rfl
  · intro hfound
    have hdepth : (State.start.walk chars).state.depth = 0 :=
      congrArg State.depth (state_walk_of_found hfound)
    have hcount := hclimb.count_eq
    rw [hdepth, Nat.add_right_inj] at hcount
    rw [hevents, hclimb.countP_opened, hclimb.countP_closed, hcount]
  · intro hfound
    obtain ⟨body, after, -, htake⟩ := take_walk_of_found hfound
    exact ⟨body, htake.symm⟩
  · intro hfound body hchars
    obtain ⟨body', after, hrest, htake⟩ := take_walk_of_found hfound
    rw [htake] at hchars
    rw [← hchars] at hrest
    -- the walk has the events of every body with this text, whatever its derivation
    have hmax := body.foldr_max_events 0
    rw [Nat.zero_add] at hmax
    rw [← hmax, ← hclimb.map_depthOf, ← hevents, hrest, walk_closed]
  · intro depth houtcome
    rw [← hlast]
    exact (Walk.outcome_eq_inputEnded houtcome).symm

end Trace

/-- **A scan traces the braces.**  From any offset of a source, a scan that looks for a token
reports the live braces of the text that it consumes, with their depths, and then one event at the
debug level that tells how it ended. -/
theorem scan_traces_braces (source : Source) (start : Nat) (flags : List Bool) :
    ∃ (result : Scan SourceInput) (first last : source.text.Pos) (depths : List Nat)
      (trace : List Log.Event) (outcome : Log.Event),
      scan ⟨true :: flags⟩ (SourceInput.ofCursor (source.cursor start)) = .ok result ∧
      (min start source.size ≤ first.offset.byteIdx ∧ ∀ here : source.text.Pos,
        min start source.size ≤ here.offset.byteIdx → first ≤ here) ∧
      first ≤ last ∧ last.offset.byteIdx = result.input.pos ∧
      result.events.toList = trace ++ [outcome] ∧
      IsTrace (source.text.extract first last).toList depths trace ∧
      IsOutcome (source.text.extract first last).toList depths trace result.found outcome := by
  obtain ⟨gap, rest, hahead⟩ := source.exists_ahead (Nat.min_le_right start source.size)
  obtain ⟨result, hscan, hfound, hpos, hevents⟩ := exists_scan_of_ahead hahead flags
  obtain ⟨first, hfirst, hleast⟩ := hahead.exists_pos
  have hrest : source.RestAt first.offset.byteIdx (rest.take (State.start.walk rest).length ++
      rest.drop (State.start.walk rest).length) := by
    rw [hfirst, List.take_append_drop]
    exact hahead.restAt
  obtain ⟨last, before, hlast, -⟩ := hrest.skip.exists_splits
  have hconsumed := hrest.extract_eq hlast
  obtain ⟨depths, hclimb, htrace⟩ := State.climb_walk .start rest
  refine ⟨result, first, last, depths, (State.start.walk rest).events,
    (State.start.walk rest).outcome, hscan, ⟨by omega, hleast⟩, ?_, ?_, hevents, ?_, ?_⟩
  · exact (hlast ▸ Nat.le_add_right _ _ : first.offset.byteIdx ≤ last.offset.byteIdx)
  · rw [hlast, hpos, hfirst]
  · rw [hconsumed, htrace]
    exact Climb.isTrace hclimb
  · rw [hconsumed, hfound]
    exact isOutcome_walk hclimb htrace

end Block

end AsmBlock
