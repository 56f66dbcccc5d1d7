import AsmBlock.Proofs.Plugin.Agreement

/-!
# Hosts and sources, call by call

A host that holds the characters of a source and an input over that source answer every call alike.
Between calls the unit indices that the host keeps are those of the characters whose byte offsets
the input keeps (`Mirrors`).  The end mark is the exception: the input moves a mark that a skip
passes by, and the host leaves it behind the token's start.
-/

namespace AsmBlock

/-! ## Hosts that hold a text -/

namespace Host

/-- The host holds the characters of a text and nothing else, and has loaded the unit at which it
stands. -/
structure Holds (host : Host) (text : String) : Prop where
  units : host.units = unitsOfText text
  endAt : host.endAt = text.toList.length
  lookahead : host.lookahead = unitAt host.units host.pos
  pos_le : host.pos ≤ text.toList.length

theorem le_nextPos (host : Host) : host.pos ≤ host.nextPos := by
  unfold nextPos
  split <;> omega

theorem size_unitsOfText (text : String) : (unitsOfText text).size = text.toList.length := by
  simp [unitsOfText]

theorem holds_start (text : String) (index : Nat) :
    (start (unitsOfText text) index none).Holds text where
  units := rfl
  endAt := by
    rw [← size_unitsOfText]
    exact Nat.min_self _
  lookahead := rfl
  pos_le := by
    rw [← size_unitsOfText]
    exact Nat.min_le_right _ _

namespace Holds

variable {host : Host} {text : String} (h : host.Holds text)

include h

theorem size_units : host.units.size = text.toList.length := by
  rw [h.units, size_unitsOfText]

theorem standsAt : host.StandsAt text host.pos where
  units := by
    rw [h.units]
    exact List.take_of_length_le (by simp [unitsOfText])
  endAt := h.endAt
  pos := rfl
  lookahead := h.lookahead

theorem nextPos_of_lt (hpos : host.pos < text.toList.length) : host.nextPos = host.pos + 1 :=
  if_pos (by rwa [h.size_units])

theorem nextPos_of_le (hpos : text.toList.length ≤ host.pos) : host.nextPos = host.pos :=
  if_neg (by rw [h.size_units]; omega)

theorem nextPos_le : host.nextPos ≤ text.toList.length := by
  have hle := h.pos_le
  by_cases hpos : host.pos < text.toList.length
  · rw [h.nextPos_of_lt hpos]
    exact hpos
  · rw [h.nextPos_of_le (by omega)]
    exact hle

theorem advance (skip : Bool) : (host.advance skip).Holds text where
  units := h.units
  endAt := h.endAt
  lookahead := rfl
  pos_le := h.nextPos_le

theorem markEnd : (Input.markEnd host).Holds text :=
  ⟨h.units, h.endAt, h.lookahead, h.pos_le⟩

theorem recognize (kind : Token.Kind) : (Input.recognize kind host).Holds text :=
  ⟨h.units, h.endAt, h.lookahead, h.pos_le⟩

/-- In front of a character the lookahead is that character. -/
theorem charOfUnit_of_drop {char : Char} {rest : List Char}
    (hrest : text.toList.drop host.pos = char :: rest) : charOfUnit host.lookahead = char := by
  have hahead := h.standsAt.ahead_eq
  have hlength := host.length_ahead
  rw [hahead, hrest, List.length_cons] at hlength
  rw [ahead_of_lt (by omega), hrest] at hahead
  exact (List.cons.inj hahead).1

theorem charOfUnit_of_drop_nil (hrest : text.toList.drop host.pos = []) :
    charOfUnit host.lookahead = '\x00' := by
  have hle := List.drop_eq_nil_iff.mp hrest
  have hzero : unitAt host.units host.pos = 0 := by
    simp [unitAt, Array.getD, h.size_units, Nat.not_lt.mpr hle]
  rw [h.lookahead, hzero]
  rfl

theorem atEnd_eq : host.atEnd = (text.toList.drop host.pos).isEmpty := by
  rw [Host.atEnd, h.endAt, Bool.eq_iff_iff, List.isEmpty_iff, List.drop_eq_nil_iff]
  simp

end Holds

end Host

/-! ## Mirroring -/

theorem Source.offsetAt_le (source : Source) {index index' : Nat} (h : index ≤ index') :
    source.offsetAt index ≤ source.offsetAt index' := by
  obtain ⟨count, rfl⟩ := Nat.exists_eq_add_of_le h
  rw [source.offsetAt_add]
  exact Nat.le_add_right _ _

/-- An input over a source and a host that holds its text keep the same state, the input in byte
offsets and the host in indices of characters.  A mark of the host counts from the token's start
on. -/
structure Mirrors (source : Source) (host : Host) (input : SourceInput) : Prop where
  holds : host.Holds source.text
  cursor : input.cursor = ⟨source, source.offsetAt host.pos⟩
  tokenStart_le : host.tokenStart ≤ host.pos
  tokenStart : input.tokenStart = source.offsetAt host.tokenStart
  recognized : input.kind? = some .llvmIr ↔ host.recognized = .ok .llvmIr
  endMark : input.endMark = host.endMark.map fun mark =>
    max (source.offsetAt mark) (source.offsetAt host.tokenStart)

namespace Mirrors

theorem start (source : Source) (index : Nat) :
    Mirrors source (Host.start (Host.unitsOfText source.text) index none)
      (SourceInput.ofCursor (source.cursor (source.offsetAt index))) := by
  have hle := (source.restAt_offsetAt index).pos_le
  have hcursor : source.cursor (source.offsetAt index) = ⟨source, source.offsetAt (Host.start
      (Host.unitsOfText source.text) index none).pos⟩ := by
    have hpos : (Host.start (Host.unitsOfText source.text) index none).pos =
        min index source.text.toList.length := by
      rw [← Host.size_unitsOfText]
      rfl
    rw [Source.cursor, Nat.min_eq_left hle, hpos, Source.offsetAt, Source.offsetAt,
      ← List.take_eq_take_min]
  refine ⟨Host.holds_start source.text index, hcursor, Nat.le_refl _, congrArg Cursor.pos hcursor,
    ?_, rfl⟩
  constructor
  · intro hkind
    cases hkind
  · intro hrecognized
    have hsymbol : Host.noSymbol = Token.Kind.llvmIr.symbol :=
      Token.Kind.ofSymbol_eq_ok_iff.mp hrecognized
    exact absurd hsymbol (by decide)

section Calls

variable {source : Source} {host : Host} {input : SourceInput} (h : Mirrors source host input)

include h

theorem lookahead_eq : Input.lookahead input = Input.lookahead host := by
  have hrest := source.restAt_offsetAt host.pos
  have hlook : Input.lookahead input = (Cursor.mk source (source.offsetAt host.pos)).char :=
    congrArg Cursor.char h.cursor
  have hhost : Input.lookahead host = .ok (Host.charOfUnit host.lookahead) := rfl
  rw [hlook, hhost]
  cases hdrop : source.text.toList.drop host.pos with
  | nil =>
    rw [hdrop] at hrest
    rw [Cursor.char_of_restAt_nil hrest, h.holds.charOfUnit_of_drop_nil hdrop]
  | cons char rest =>
    rw [hdrop] at hrest
    rw [Cursor.char_of_restAt hrest, h.holds.charOfUnit_of_drop hdrop]

theorem atEnd_eq : Input.atEnd input = Input.atEnd host := by
  have hrest := source.restAt_offsetAt host.pos
  have hend : Input.atEnd input = (Cursor.mk source (source.offsetAt host.pos)).atEnd :=
    congrArg Cursor.atEnd h.cursor
  have hhost : Input.atEnd host = .ok (source.text.toList.drop host.pos).isEmpty :=
    congrArg Except.ok h.holds.atEnd_eq
  rw [hend, hhost]
  cases hdrop : source.text.toList.drop host.pos with
  | nil =>
    rw [hdrop] at hrest
    exact Cursor.atEnd_of_restAt_nil hrest
  | cons char rest =>
    rw [hdrop] at hrest
    exact Cursor.atEnd_of_restAt hrest

/-- The input's step leads to the offset of the unit to which the host's step leads. -/
theorem next_eq : input.cursor.next = .ok ⟨source, source.offsetAt host.nextPos⟩ := by
  have hrest := source.restAt_offsetAt host.pos
  rw [h.cursor]
  cases hdrop : source.text.toList.drop host.pos with
  | nil =>
    rw [hdrop] at hrest
    rw [h.holds.nextPos_of_le (List.drop_eq_nil_iff.mp hdrop)]
    exact Cursor.next_of_atEnd (Cursor.atEnd_of_restAt_nil hrest)
  | cons char rest =>
    have hlength := congrArg List.length hdrop
    rw [List.length_drop, List.length_cons] at hlength
    have hpos : host.pos < source.text.toList.length := by omega
    have hstep : source.offsetAt (host.pos + 1) = source.offsetAt host.pos + char.utf8Size := by
      rw [source.offsetAt_add, hdrop]
      rfl
    rw [hdrop] at hrest
    rw [h.holds.nextPos_of_lt hpos, hstep]
    exact Cursor.next_of_restAt hrest

theorem advance (skip : Bool) : ∃ next, Input.advance skip input = .ok next ∧
    Mirrors source (host.advance skip) next := by
  have hsource : input.cursor.source = source := congrArg Cursor.source h.cursor
  have hnext : input.cursor.next = .ok ⟨input.cursor.source, source.offsetAt host.nextPos⟩ := by
    rw [hsource]
    exact h.next_eq
  have hholds := h.holds.advance skip
  have hmoved : (input.moveTo (source.offsetAt host.nextPos)).cursor =
      ⟨source, source.offsetAt host.nextPos⟩ := congrArg (Cursor.mk · _) hsource
  have hge := host.le_nextPos
  have hle := h.tokenStart_le
  cases skip with
  | false =>
    exact ⟨_, SourceInput.advance_of_next hnext, hholds, hmoved, Nat.le_trans hle hge,
      h.tokenStart, h.recognized, h.endMark⟩
  | true =>
    refine ⟨_, SourceInput.advance_skip_of_next hnext, hholds, hmoved, Nat.le_refl _, rfl,
      h.recognized, ?_⟩
    -- the token's start only ever moves forward, so the last start is the one that counts
    have hstart : source.offsetAt host.tokenStart ≤ source.offsetAt host.nextPos :=
      source.offsetAt_le (Nat.le_trans hle hge)
    have hmark : (input.moveTo (source.offsetAt host.nextPos)).startHere.endMark =
        input.endMark.map (max (source.offsetAt host.nextPos)) := rfl
    have hmax : ∀ mark, max (source.offsetAt host.nextPos)
        (max (source.offsetAt mark) (source.offsetAt host.tokenStart)) =
        max (source.offsetAt mark) (source.offsetAt host.nextPos) := by
      intro mark
      omega
    rw [hmark, h.endMark, Option.map_map]
    exact congrArg (Option.map · host.endMark) (funext hmax)

theorem markEnd : Mirrors source (Input.markEnd host) (Input.markEnd input) := by
  have hpos : input.pos = source.offsetAt host.pos := congrArg Cursor.pos h.cursor
  have hstart := source.offsetAt_le h.tokenStart_le
  refine ⟨h.holds.markEnd, h.cursor, h.tokenStart_le, h.tokenStart, h.recognized, ?_⟩
  have hmax : max (source.offsetAt host.pos) (source.offsetAt host.tokenStart) = input.pos := by
    omega
  exact congrArg some hmax.symm

theorem recognize (kind : Token.Kind) :
    Mirrors source (Input.recognize kind host) (Input.recognize kind input) := by
  refine ⟨h.holds.recognize kind, h.cursor, h.tokenStart_le, h.tokenStart, ?_, h.endMark⟩
  cases kind
  exact ⟨fun _ => rfl, fun _ => rfl⟩

/-- Every call has the same answer on both sides, and they mirror one another behind it. -/
theorem perform (call : Input.Call) : ∃ answer nextInput nextHost,
    Input.perform input call = .ok (answer, nextInput) ∧
    Input.perform host call = .ok (answer, nextHost) ∧ Mirrors source nextHost nextInput := by
  cases call with
  | lookahead =>
    have hhost : Input.lookahead host = .ok (Host.charOfUnit host.lookahead) := rfl
    have hinput := h.lookahead_eq.trans hhost
    exact ⟨_, input, host, Input.perform_lookahead hinput, Input.perform_lookahead hhost, h⟩
  | atEnd =>
    have hhost : Input.atEnd host = .ok host.atEnd := rfl
    have hinput := h.atEnd_eq.trans hhost
    exact ⟨_, input, host, Input.perform_atEnd hinput, Input.perform_atEnd hhost, h⟩
  | advance skip =>
    obtain ⟨next, hnext, hmirrors⟩ := h.advance skip
    exact ⟨_, next, host.advance skip, Input.perform_advance hnext, rfl, hmirrors⟩
  | markEnd => exact ⟨_, _, _, rfl, rfl, h.markEnd⟩
  | recognize kind => exact ⟨_, _, _, rfl, rfl, h.recognize kind⟩

theorem performAll (calls : List Input.Call) : ∃ answers lastInput lastHost,
    Input.performAll input calls = .ok (answers, lastInput) ∧
    Input.performAll host calls = .ok (answers, lastHost) ∧
    Mirrors source lastHost lastInput := by
  induction calls generalizing input host with
  | nil => exact ⟨[], input, host, rfl, rfl, h⟩
  | cons call calls ih =>
    obtain ⟨answer, nextInput, nextHost, hinput, hhost, hnext⟩ := h.perform call
    obtain ⟨answers, lastInput, lastHost, hinputs, hhosts, hlast⟩ := ih hnext
    exact ⟨answer :: answers, lastInput, lastHost, Input.performAll_cons hinput hinputs,
      Input.performAll_cons hhost hhosts, hlast⟩

end Calls

end Mirrors

/-- **A host and a source are one input, call by call.**  From the same character on, any calls have
the same answers on both, and leave both in the same state. -/
theorem calls_agree (source : Source) (index : Nat) (calls : List Input.Call) :
    ∃ answers input host,
      Input.performAll (SourceInput.ofCursor (source.cursor (source.offsetAt index))) calls =
        .ok (answers, input) ∧
      Input.performAll (Host.start (Host.unitsOfText source.text) index none) calls =
        .ok (answers, host) ∧
      Mirrors source host input :=
  (Mirrors.start source index).performAll calls

end AsmBlock
