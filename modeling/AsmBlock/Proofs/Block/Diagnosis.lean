import AsmBlock.Proofs.Block.Body
import AsmBlock.Proofs.SourceInput.Scanning

/-!
# What a failed scan reports

A text behind the opening brace of a block leaves the block open in one of three ways: it ends in a
string, in a comment, or in a body with braces open.  `Unfinished` ties each of them to the event
that reports it.  A scan fails exactly on these texts, with this event, and leaves its input as it
was but for the position (`scan_diagnoses`).
-/

namespace AsmBlock

namespace Block

/-! ## Unfinished texts -/

/-- The ways in which a text leaves its block open, and what is reported of each. -/
inductive Unfinished : List Char → Log.Event → Prop where
  /-- The text ends in a string: behind the quote there is no other. -/
  | inString (part : OpenBody) (text : List Char) (htext : '"' ∉ text) :
      Unfinished (part.chars ++ '"' :: text) .stringUnterminated
  /-- The text ends in a comment: behind the semicolon there is no newline. -/
  | inComment (part : OpenBody) (text : List Char) (htext : '\n' ∉ text) :
      Unfinished (part.chars ++ ';' :: text) .commentUnterminated
  /-- The text ends in a body, and the braces open in it are counted. -/
  | inBody (part : OpenBody) : Unfinished part.chars (.inputEnded part.depth)

/-- A text that does not close its block is unfinished. -/
theorem Outlook.closed_or_unfinished {chars : List Char} (h : Outlook chars) :
    (∃ (body : Body) (after : List Char), chars = body.chars ++ '}' :: after) ∨
      ∃ event, Unfinished chars event := by
  cases h with
  | closed body after h => exact .inl ⟨body, after, h⟩
  | ended part h =>
    subst h
    exact .inr ⟨_, .inBody part⟩
  | inString part text htext h =>
    subst h
    exact .inr ⟨_, .inString part text htext⟩
  | inComment part text htext h =>
    subst h
    exact .inr ⟨_, .inComment part text htext⟩

/-- In a string or comment that is not closed a walk comes to the end. -/
theorem OpenBody.passes_hidden (part : OpenBody) {context : Context} {opener stop : Char}
    (hopener : ∀ depth, (State.mk .code depth).move (.ofChar opener) = .next ⟨context, depth⟩ none)
    (hstop : context.terminator? = some stop) {text : List Char} (htext : stop ∉ text)
    (depth : Nat) :
    (State.mk .code depth).Passes (part.chars ++ opener :: text) ⟨context, depth + part.depth⟩
      (part.events depth) := by
  have hhidden : (State.mk .code (depth + part.depth)).Passes (opener :: text)
      ⟨context, depth + part.depth⟩ [] :=
    (State.passes_hidden hstop htext _).cons (hopener _)
  simpa using (part.passes depth).append hhidden

namespace Unfinished

variable {chars : List Char} {event : Log.Event}

/-- A walk comes to the end of an unfinished text in the state that its event reports. -/
theorem exists_passes (h : Unfinished chars event) : ∃ (last : State) (events : List Log.Event),
    State.start.Passes chars last events ∧ last.endEvent = event := by
  cases h with
  | inString part text htext =>
    exact ⟨_, _, part.passes_hidden (fun _ => rfl) rfl htext 0, rfl⟩
  | inComment part text htext =>
    exact ⟨_, _, part.passes_hidden (fun _ => rfl) rfl htext 0, rfl⟩
  | inBody part =>
    refine ⟨_, _, part.passes 0, ?_⟩
    rw [Nat.zero_add]
    rfl

theorem walk (h : Unfinished chars event) :
    (State.start.walk chars).found = false ∧ (State.start.walk chars).outcome = event := by
  obtain ⟨last, events, hpasses, hevent⟩ := h.exists_passes
  rw [hpasses]
  exact ⟨rfl, hevent⟩

end Unfinished

/-- A walk that does not find the closing brace tells why there is none. -/
theorem unfinished_of_not_found {chars : List Char}
    (h : (State.start.walk chars).found = false) :
    Unfinished chars (State.start.walk chars).outcome := by
  rcases (Outlook.of_chars chars).closed_or_unfinished with ⟨body, after, rfl⟩ | ⟨event, hevent⟩
  · rw [walk_closed] at h
    cases h
  · obtain ⟨-, houtcome⟩ := hevent.walk
    rwa [houtcome]

/-! ## Failed scans -/

/-- **A failed scan is diagnosed.**  Whatever is known of the token around an input that stands at a
character, a scan fails exactly if the text left is unfinished, and the one event at the debug level
tells in which way, of which there is only one.  The scan then has used up the input and changed
nothing else of it. -/
theorem scan_diagnoses (source : Source) (here : source.text.Pos) (tokenStart : Nat)
    (endMark : Option Nat) (kind? : Option Token.Kind) (flags : List Bool) :
    let rest := (source.text.extract here source.text.endPos).toList
    ∃ (result : Scan SourceInput) (trace : List Log.Event) (outcome : Log.Event),
      scan ⟨true :: flags⟩ ⟨⟨source, here.offset.byteIdx⟩, tokenStart, endMark, kind?⟩ =
        .ok result ∧
      result.events.toList = trace ++ [outcome] ∧
      (∀ event ∈ trace, event.level = .trace) ∧ outcome.level = .debug ∧
      (result.found = false →
        result.input = ⟨⟨source, source.size⟩, tokenStart, endMark, kind?⟩ ∧
        Input.atEnd result.input = .ok true ∧
        Unfinished rest outcome) ∧
      ∀ event, Unfinished rest event → result.found = false ∧ outcome = event := by
  intro rest
  have hrest : source.RestAt here.offset.byteIdx rest := source.restAt_extract_endPos here
  have hscan : scan ⟨true :: flags⟩
      (⟨⟨source, here.offset.byteIdx⟩, tokenStart, endMark, kind?⟩ : SourceInput) =
      .ok ((State.start.walk rest).toScan #[] ⟨⟨source, here.offset.byteIdx +
        Utf8.size (rest.take (State.start.walk rest).length)⟩, tokenStart, endMark, kind?⟩) :=
    scan_of_ahead (Source.RestAt.ahead hrest) flags
  have htrace : ∀ event ∈ (State.start.walk rest).events, event.level = .trace := by
    intro event hevent
    exact (State.traced_of_mem_events hevent).1
  cases hfound : (State.start.walk rest).found with
  | true =>
    rw [Walk.toScan_of_found hfound] at hscan
    refine ⟨_, (State.start.walk rest).events, (State.start.walk rest).outcome, hscan, ?_, htrace,
      Walk.level_outcome _, ?_, ?_⟩
    · simp [Walk.report]
    · intro hnot
      cases hnot
    · intro event hevent
      rw [hevent.walk.1] at hfound
      cases hfound
  | false =>
    rw [Walk.toScan_of_not_found hfound, State.length_walk_of_not_found hfound, List.take_length,
      hrest.pos_add_size] at hscan
    refine ⟨_, (State.start.walk rest).events, (State.start.walk rest).outcome, hscan, ?_, htrace,
      Walk.level_outcome _, ?_, ?_⟩
    · simp [Walk.report]
    · intro _
      exact ⟨rfl, Cursor.atEnd_size source, unfinished_of_not_found hfound⟩
    · intro event hevent
      exact ⟨rfl, hevent.walk.2⟩

end Block

end AsmBlock
