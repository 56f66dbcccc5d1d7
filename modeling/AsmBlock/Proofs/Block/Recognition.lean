import AsmBlock.Proofs.Block.Diagnosis

/-!
# What a scan recognizes

A scan from a position of a source finds a token exactly when a body and then a closing brace
follow.  There is at most one such body (`ClosesAt.unique`), and the token covers it.
-/

namespace AsmBlock

namespace Block

/-! ## Walks by the outlook of a text -/

/-- A walk finds the closing brace exactly behind a body. -/
theorem walk_found_iff {chars : List Char} : (State.start.walk chars).found = true ↔
    ∃ (body : Body) (after : List Char), chars = body.chars ++ '}' :: after := by
  constructor
  · intro hfound
    rcases (Outlook.of_chars chars).closed_or_unfinished with hclosed | ⟨event, hevent⟩
    · exact hclosed
    · rw [hevent.walk.1] at hfound
      cases hfound
  · rintro ⟨body, after, rfl⟩
    rw [walk_closed]

section Found

variable {chars : List Char} (hfound : (State.start.walk chars).found = true)

include hfound

theorem state_walk_of_found : (State.start.walk chars).state = .start := by
  obtain ⟨body, after, rfl⟩ := walk_found_iff.mp hfound
  rw [walk_closed]

theorem take_walk_of_found : ∃ (body : Body) (after : List Char),
    chars = body.chars ++ '}' :: after ∧
      chars.take (State.start.walk chars).length = body.chars := by
  obtain ⟨body, after, rfl⟩ := walk_found_iff.mp hfound
  refine ⟨body, after, rfl, ?_⟩
  rw [walk_closed, List.take_left]

end Found

/-- A token that was found, from whatever offset, covers a body in front of a closing brace. -/
theorem exists_body_of_scanSource {source : Source} {start : Nat} {valid : TokenFlags}
    {token : Token} (h : scanSource source start valid = .ok (some token)) :
    ∃ (flags : List Bool) (gap : Nat) (body : Body) (after : List Char), valid = ⟨true :: flags⟩ ∧
      source.Ahead (min start source.size) gap (body.chars ++ '}' :: after) ∧
      token = ⟨.llvmIr, min start source.size,
        min start source.size + gap + Utf8.size body.chars⟩ := by
  obtain ⟨gap, rest, hahead⟩ := source.exists_ahead (Nat.min_le_right start source.size)
  rcases valid.contains_eq_false_or with hnot | ⟨flags, rfl⟩
  · rw [scanSource, scan_of_not_contains hnot] at h
    cases h
  · rw [scanSource_of_ahead hahead] at h
    cases hfound : (State.start.walk rest).found with
    | false =>
      rw [hfound] at h
      cases h
    | true =>
      obtain ⟨body, after, rfl, htake⟩ := take_walk_of_found hfound
      rw [hfound, htake] at h
      cases h
      exact ⟨flags, gap, body, after, rfl, hahead, rfl⟩

/-! ## Bodies between positions of a text -/

/-- Between two positions stands a body, and a closing brace behind it. -/
structure ClosesAt (text : String) (start stop : text.Pos) : Prop where
  le : start ≤ stop
  body : ∃ body : Body, (text.extract start stop).toList = body.chars
  brace : ∃ hend : stop ≠ text.endPos, stop.get hend = '}'

variable {source : Source} {start stop : source.text.Pos}

theorem closesAt_iff : ClosesAt source.text start stop ↔ ∃ (body : Body) (after : List Char),
    source.RestAt start.offset.byteIdx (body.chars ++ '}' :: after) ∧
      stop.offset.byteIdx = start.offset.byteIdx + Utf8.size body.chars := by
  constructor
  · rintro ⟨hle, ⟨body, hbody⟩, hend, hbrace⟩
    have hstop := Source.restAt_of_splits (stop.splits_next_right hend)
    rw [String.toList_append, String.toList_singleton, hbrace] at hstop
    have hstart := hstop.extract hle
    rw [hbody] at hstart
    have hsum := hstart.pos_add_size
    have hsum' := hstop.pos_add_size
    rw [Utf8.size_append] at hsum
    exact ⟨body, _, hstart, by rw [List.singleton_append] at hsum hsum'; omega⟩
  · rintro ⟨body, after, hstart, hstop⟩
    have hrest := hstart.skip
    rw [← hstop] at hrest
    obtain ⟨here, hend, hpos, hbrace⟩ := hrest.exists_pos
    have hhere : here = stop := String.Pos.ext (String.Pos.Raw.ext hpos)
    subst hhere
    refine ⟨?_, ⟨body, hstart.extract_eq hstop⟩, hend, hbrace⟩
    exact (hstop ▸ Nat.le_add_right _ _ : start.offset.byteIdx ≤ here.offset.byteIdx)

/-- A body in front of a closing brace is determined by where it starts. -/
theorem ClosesAt.unique {stop' : source.text.Pos} (h : ClosesAt source.text start stop)
    (h' : ClosesAt source.text start stop') : stop = stop' := by
  obtain ⟨body, after, hstart, hstop⟩ := closesAt_iff.mp h
  obtain ⟨body', after', hstart', hstop'⟩ := closesAt_iff.mp h'
  have htext := hstart.unique hstart'
  -- one walk stops behind both bodies
  have hwalk := walk_closed body after
  rw [htext, walk_closed body' after'] at hwalk
  have hlength : body'.chars.length = body.chars.length := congrArg Walk.length hwalk
  have hchars := List.append_inj_left htext hlength.symm
  apply String.Pos.ext
  apply String.Pos.Raw.ext
  rw [hstop, hstop', hchars]

theorem scanSource_of_closesAt (h : ClosesAt source.text start stop) (flags : List Bool) :
    scanSource source start.offset.byteIdx ⟨true :: flags⟩ =
      .ok (some ⟨.llvmIr, start.offset.byteIdx, stop.offset.byteIdx⟩) := by
  obtain ⟨body, after, hstart, hstop⟩ := closesAt_iff.mp h
  rw [scanSource_of_restAt hstart, walk_closed, List.take_left, hstop]
  rfl

theorem scanSource_of_not_closesAt (h : ¬ ∃ stop, ClosesAt source.text start stop)
    (flags : List Bool) :
    scanSource source start.offset.byteIdx ⟨true :: flags⟩ = .ok none := by
  obtain ⟨rest, hrest⟩ := Source.exists_restAt_iff.mpr start.isValid
  have hfound : ¬ (State.start.walk rest).found = true := by
    intro hfound
    obtain ⟨body, after, rfl⟩ := walk_found_iff.mp hfound
    obtain ⟨stop, -, hstop, -⟩ := hrest.skip.exists_pos
    exact h ⟨stop, closesAt_iff.mpr ⟨body, after, hrest, hstop⟩⟩
  rw [scanSource_of_restAt hrest, if_neg hfound]

/-- **A scan recognizes exactly the bodies.**  From any position of a source it finds the token over
the one body that a closing brace follows, and nothing when there is none. -/
theorem scanSource_recognizes_body (source : Source) (start : source.text.Pos)
    (flags : List Bool) :
    (∀ token, scanSource source start.offset.byteIdx ⟨true :: flags⟩ = .ok (some token) ↔
      ∃ stop, ClosesAt source.text start stop ∧
        token = ⟨.llvmIr, start.offset.byteIdx, stop.offset.byteIdx⟩) ∧
    (scanSource source start.offset.byteIdx ⟨true :: flags⟩ = .ok none ↔
      ¬ ∃ stop, ClosesAt source.text start stop) ∧
    (∀ stop stop', ClosesAt source.text start stop → ClosesAt source.text start stop' →
      stop = stop') ∧
    ∀ stop, ClosesAt source.text start stop →
      ∃ token, scanSource source start.offset.byteIdx ⟨true :: flags⟩ = .ok (some token) ∧
        token = ⟨.llvmIr, start.offset.byteIdx, stop.offset.byteIdx⟩ ∧
        token.text source = source.text.extract start stop ∧
        token.closeEnd = .ok (stop.offset.byteIdx + 1) ∧
        stop.offset.byteIdx + 1 ≤ source.size := by
  refine ⟨?_, ?_, ?_, ?_⟩
  · intro token
    constructor
    · intro htoken
      by_cases hcloses : ∃ stop, ClosesAt source.text start stop
      · obtain ⟨stop, hstop⟩ := hcloses
        rw [scanSource_of_closesAt hstop] at htoken
        cases htoken
        exact ⟨stop, hstop, rfl⟩
      · rw [scanSource_of_not_closesAt hcloses] at htoken
        cases htoken
    · rintro ⟨stop, hstop, rfl⟩
      exact scanSource_of_closesAt hstop flags
  · constructor
    · rintro hnone ⟨stop, hstop⟩
      rw [scanSource_of_closesAt hstop] at hnone
      cases hnone
    · intro hcloses
      exact scanSource_of_not_closesAt hcloses flags
  · intro stop stop' h h'
    exact h.unique h'
  · intro stop h
    obtain ⟨hend, -⟩ := h.brace
    have hlt : stop.offset.byteIdx < source.size := stop.byteIdx_lt_utf8ByteSize hend
    have hlimit := source.size_lt_offsetLimit
    refine ⟨_, scanSource_of_closesAt h flags, rfl, Source.slice_pos h.le, ?_, hlt⟩
    exact checkedAdd_of_lt (by simp only; omega)

end Block

end AsmBlock
