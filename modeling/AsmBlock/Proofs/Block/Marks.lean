import AsmBlock.Proofs.Block.Body
import AsmBlock.Proofs.Block.Loop
import AsmBlock.Proofs.SourceInput.Scanning

/-!
# Where a scan reports

`Scan.Reports` says that a scan, on its way over a source, reports an event at the character at a
byte offset.  `State.marks` lists these offsets and events for the characters that are left of a
text, and `Scan.reports_iff_of_ahead` shows that the two agree from any offset.
-/

namespace AsmBlock

namespace Block

open Input

/-! ## Marks -/

namespace State

/-- The events of a walk over characters, the first of which is at the offset `pos`, and the offset
of the character at which each is reported. -/
def marks (state : State) (pos : Nat) : List Char → List (Nat × Log.Event)
  | [] => []
  | char :: chars =>
    match state.move (.ofChar char) with
    | .found => []
    | .next after event? => event?.toList.map (pos, ·) ++ after.marks (pos + char.utf8Size) chars

variable {state after middle last : State} {event? : Option Log.Event} {char : Char}
  {chars : List Char}

theorem marks_cons_of_found (h : state.move (.ofChar char) = .found) (pos : Nat) :
    state.marks pos (char :: chars) = [] := by
  rw [marks, h]

theorem marks_cons_of_next (h : state.move (.ofChar char) = .next after event?) (pos : Nat) :
    state.marks pos (char :: chars) =
      event?.toList.map (pos, ·) ++ after.marks (pos + char.utf8Size) chars := by
  rw [marks, h]

/-- The marks hold the events of the walk, in order. -/
theorem map_snd_marks (state : State) (pos : Nat) (chars : List Char) :
    (state.marks pos chars).map Prod.snd = (state.walk chars).events := by
  induction chars generalizing state pos with
  | nil => rfl
  | cons char chars ih =>
    cases hmove : state.move (.ofChar char) with
    | found =>
      rw [marks_cons_of_found hmove, walk_cons_of_found hmove]
      rfl
    | next after event? =>
      rw [marks_cons_of_next hmove, walk_cons_of_next hmove, List.map_append, ih, List.map_map]
      exact congrArg (· ++ (after.walk chars).events) (List.map_id _)

theorem le_of_mem_marks {pos : Nat} {mark : Nat × Log.Event} (h : mark ∈ state.marks pos chars) :
    pos ≤ mark.1 := by
  induction chars generalizing state pos with
  | nil => cases h
  | cons char chars ih =>
    cases hmove : state.move (.ofChar char) with
    | found =>
      rw [marks_cons_of_found hmove] at h
      cases h
    | next after event? =>
      rw [marks_cons_of_next hmove] at h
      rcases List.mem_append.mp h with h | h
      · obtain ⟨_, -, rfl⟩ := List.mem_map.mp h
        exact Nat.le_refl pos
      · exact Nat.le_trans (Nat.le_add_right _ _) (ih h)

/-- The marks follow one another in the text. -/
theorem pairwise_marks (state : State) (pos : Nat) (chars : List Char) :
    ((state.marks pos chars).map Prod.fst).Pairwise (· < ·) := by
  induction chars generalizing state pos with
  | nil => exact .nil
  | cons char chars ih =>
    cases hmove : state.move (.ofChar char) with
    | found =>
      rw [marks_cons_of_found hmove]
      exact .nil
    | next after event? =>
      rw [marks_cons_of_next hmove]
      cases event? with
      | none => exact ih after _
      | some event =>
        refine List.pairwise_cons.mpr ⟨?_, ih after _⟩
        intro other hother
        obtain ⟨mark, hmark, rfl⟩ := List.mem_map.mp hother
        exact Nat.lt_of_lt_of_le (Nat.lt_add_of_pos_right char.utf8Size_pos)
          (le_of_mem_marks hmark)

/-- Behind text that is passed through, the marks are those of the state that it leads to. -/
theorem Passes.marks_append {events : List Log.Event} (h : state.Passes chars middle events)
    (pos : Nat) (back : List Char) :
    state.marks pos (chars ++ back) =
      state.marks pos chars ++ middle.marks (pos + Utf8.size chars) back := by
  induction chars generalizing state pos events with
  | nil =>
    cases h
    rfl
  | cons char chars ih =>
    cases hmove : state.move (.ofChar char) with
    | found =>
      rw [Passes, walk_cons_of_found hmove] at h
      cases h
    | next after event? =>
      rw [Passes, walk_cons_of_next hmove] at h
      have hpasses : after.Passes chars middle (after.walk chars).events := by
        have hfound : (after.walk chars).found = false := congrArg Walk.found h
        have hstate : (after.walk chars).state = middle := congrArg Walk.state h
        have hrest := passes_of_not_found hfound
        rwa [hstate] at hrest
      rw [List.cons_append, marks_cons_of_next hmove, marks_cons_of_next hmove, ih hpasses,
        List.append_assoc, Utf8.size_cons, Nat.add_assoc]

/-- Text in which nothing is reported has no marks. -/
theorem Passes.marks_eq_nil (h : state.Passes chars last []) (pos : Nat) :
    state.marks pos chars = [] := by
  have hevents := map_snd_marks state pos chars
  rw [h] at hevents
  exact List.map_eq_nil_iff.mp hevents

end State

/-! ## Reports -/

namespace Scan

/-- A scan that goes on in a state at an input reports an event at the character at the byte offset
`pos`. -/
def Reports (state : State) (input : SourceInput) (pos : Nat) (event : Log.Event) : Prop :=
  ∃ count last stop char after, Leads state input count last stop ∧ atEnd stop = .ok false ∧
    lookahead stop = .ok char ∧ last.step (.ofChar char) = .ok (.next after (some event)) ∧
    stop.pos = pos

section Steps

variable {state after : State} {input advanced : SourceInput} {char : Char}
  {event? : Option Log.Event} {pos : Nat} {event : Log.Event}

/-- What is reported is reported at the next character or behind it. -/
theorem Reports.cases (h : Reports state input pos event) :
    atEnd input = .ok false ∧ ∃ char after event? advanced, lookahead input = .ok char ∧
      state.step (.ofChar char) = .ok (.next after event?) ∧
      ((event? = some event ∧ input.pos = pos) ∨
        (advance false input = .ok advanced ∧ Reports after advanced pos event)) := by
  obtain ⟨_, last, stop, char, after, hleads, hreport⟩ := h
  cases hleads with
  | refl =>
    obtain ⟨hend, hchar, hstep, hpos⟩ := hreport
    exact ⟨hend, char, after, some event, input, hchar, hstep, .inl ⟨rfl, hpos⟩⟩
  | next hend hchar hstep hadvance hrest =>
    exact ⟨hend, _, _, _, _, hchar, hstep,
      .inr ⟨hadvance, _, last, stop, char, after, hrest, hreport⟩⟩

theorem not_reports_of_atEnd (hend : atEnd input = .ok true) :
    ¬ Reports state input pos event := by
  intro h
  have hmore := h.cases.1
  rw [hend] at hmore
  cases hmore

theorem not_reports_of_found (hchar : lookahead input = .ok char)
    (hstep : state.step (.ofChar char) = .ok .found) : ¬ Reports state input pos event := by
  intro h
  obtain ⟨-, _, _, _, _, hchar', hstep', -⟩ := h.cases
  rw [hchar] at hchar'
  cases hchar'
  rw [hstep] at hstep'
  cases hstep'

theorem reports_iff_of_next (hend : atEnd input = .ok false) (hchar : lookahead input = .ok char)
    (hstep : state.step (.ofChar char) = .ok (.next after event?))
    (hadvance : advance false input = .ok advanced) :
    Reports state input pos event ↔
      (event? = some event ∧ input.pos = pos) ∨ Reports after advanced pos event := by
  constructor
  · intro h
    obtain ⟨-, _, _, _, _, hchar', hstep', hreport⟩ := h.cases
    rw [hchar] at hchar'
    cases hchar'
    rw [hstep] at hstep'
    cases hstep'
    rcases hreport with hhere | ⟨hadvance', hrest⟩
    · exact .inl hhere
    · rw [hadvance] at hadvance'
      cases hadvance'
      exact .inr hrest
  · rintro (⟨rfl, hpos⟩ | ⟨count, last, stop, char', after', hleads, hreport⟩)
    · exact ⟨0, state, input, char, after, .refl state input, hend, hchar, hstep, hpos⟩
    · exact ⟨count + 1, last, stop, char', after', .next hend hchar hstep hadvance hleads, hreport⟩

end Steps

section Ahead

variable {state : State} {input : SourceInput} {rest : List Char} {pos : Nat} {event : Log.Event}

theorem reports_iff_of_restAt (h : input.cursor.source.RestAt input.pos rest)
    (hdepth : state.depth + rest.length < offsetLimit) :
    Reports state input pos event ↔ (pos, event) ∈ state.marks input.pos rest := by
  induction rest generalizing state input with
  | nil =>
    have hnone : ¬ Reports state input pos event :=
      not_reports_of_atEnd (Cursor.atEnd_of_restAt_nil h)
    exact ⟨fun hreports => absurd hreports hnone, fun hmem => nomatch hmem⟩
  | cons char rest ih =>
    rw [List.length_cons] at hdepth
    have hyields := SourceInput.yields_of_restAt h
    have hstep := state.step_eq_ok_move (by omega) (.ofChar char)
    cases hmove : state.move (.ofChar char) with
    | found =>
      rw [hmove] at hstep
      have hnone : ¬ Reports state input pos event :=
        not_reports_of_found hyields.lookahead hstep
      rw [State.marks_cons_of_found hmove]
      exact ⟨fun hreports => absurd hreports hnone, fun hmem => nomatch hmem⟩
    | next after event? =>
      rw [hmove] at hstep
      have hafter := State.depth_le_of_move hmove
      have hdepth' : after.depth + rest.length < offsetLimit := by omega
      have htail : (input.moveTo (input.pos + char.utf8Size)).cursor.source.RestAt
          (input.moveTo (input.pos + char.utf8Size)).pos rest := h.tail
      rw [reports_iff_of_next hyields.atEnd hyields.lookahead hstep hyields.advance,
        ih htail hdepth', State.marks_cons_of_next hmove, List.mem_append, SourceInput.pos_moveTo]
      refine or_congr_left ?_
      cases event? <;> simp [and_comm, eq_comm]

/-- From any offset a scan reports at the marks of the characters from the next one on. -/
theorem reports_iff_of_ahead {gap : Nat} (h : input.cursor.source.Ahead input.pos gap rest)
    (hdepth : state.depth + rest.length < offsetLimit) :
    Reports state input pos event ↔ (pos, event) ∈ state.marks (input.pos + gap) rest := by
  induction gap generalizing input with
  | zero => exact reports_iff_of_restAt h.restAt hdepth
  | succ gap ih =>
    have hyields := SourceInput.yields_of_ahead h
    have hsucc : (input.moveTo (input.pos + 1)).cursor.source.Ahead
        (input.moveTo (input.pos + 1)).pos gap rest := h.succ
    -- nothing is reported at a replacement character
    rw [reports_iff_of_next hyields.atEnd hyields.lookahead state.step_replacement hyields.advance,
      ih hsucc, SourceInput.pos_moveTo, Nat.add_assoc, Nat.add_comm 1]
    simp

end Ahead

end Scan

end Block

end AsmBlock
