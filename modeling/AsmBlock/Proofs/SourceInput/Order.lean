import AsmBlock.Proofs.SourceInput.Reachability

/-!
# The order of the offsets of a source input

A source input holds three offsets of its text: the token's start, the end mark and the position.
They stand in this order whatever is done to the input (`Ordered.of_reaches`), and lie at characters
if the first position does (`OnCharacters.of_reaches`).  A token is therefore the text between its
start and its mark (`Session.token_between_offsets`).
-/

namespace AsmBlock

namespace SourceInput

/-! ## The order -/

/-- The token's start, the end mark and the position follow one another in the text of a source. -/
structure Ordered (source : Source) (input : SourceInput) : Prop where
  source_eq : input.cursor.source = source
  tokenStart_le : input.tokenStart ≤ input.pos
  pos_le : input.pos ≤ source.size
  endMark : ∀ mark, input.endMark = some mark → input.tokenStart ≤ mark ∧ mark ≤ input.pos

namespace Ordered

theorem ofCursor (source : Source) (start : Nat) :
    Ordered source (ofCursor (source.cursor start)) where
  source_eq := rfl
  tokenStart_le := Nat.le_refl _
  pos_le := Nat.min_le_right _ _
  endMark := by
    intro mark hmark
    cases hmark

variable {source : Source} {input : SourceInput} (h : Ordered source input)

include h

theorem moveTo {pos : Nat} (hpos : input.Forward pos) : Ordered source (input.moveTo pos) where
  source_eq := h.source_eq
  tokenStart_le := Nat.le_trans h.tokenStart_le hpos.le
  pos_le := by
    rw [← h.source_eq]
    exact hpos.le_size
  endMark := by
    intro mark hmark
    obtain ⟨hstart, hle⟩ := h.endMark mark hmark
    exact ⟨hstart, Nat.le_trans hle hpos.le⟩

/-- A mark in front of the token's new start is moved to it, so it is not left behind. -/
theorem startHere : Ordered source input.startHere where
  source_eq := h.source_eq
  tokenStart_le := Nat.le_refl _
  pos_le := h.pos_le
  endMark := by
    intro mark hmark
    obtain ⟨old, hold, rfl⟩ := Option.map_eq_some_iff.mp hmark
    obtain ⟨-, hle⟩ := h.endMark old hold
    exact ⟨Nat.le_max_left _ _, Nat.max_le.mpr ⟨Nat.le_refl _, hle⟩⟩

theorem markEnd : Ordered source (Input.markEnd input) where
  source_eq := h.source_eq
  tokenStart_le := h.tokenStart_le
  pos_le := h.pos_le
  endMark := by
    intro mark hmark
    cases hmark
    exact ⟨h.tokenStart_le, Nat.le_refl _⟩

theorem recognize (kind : Token.Kind) : Ordered source (Input.recognize kind input) where
  source_eq := h.source_eq
  tokenStart_le := h.tokenStart_le
  pos_le := h.pos_le
  endMark := h.endMark

theorem restart : Ordered source input.restart where
  source_eq := h.source_eq
  tokenStart_le := Nat.le_refl _
  pos_le := h.pos_le
  endMark := by
    intro mark hmark
    cases hmark

theorem of_reaches {last : SourceInput} (hlast : Reaches input last) : Ordered source last := by
  induction hlast with
  | refl => exact h
  | moveTo _ hpos ih => exact ih.moveTo hpos
  | startHere _ ih => exact ih.startHere
  | markEnd _ ih => exact ih.markEnd
  | recognize kind _ ih => exact ih.recognize kind
  | restart _ ih => exact ih.restart

/-- The mark, or the position in its place, lies between the token's start and the position. -/
theorem getD_endMark :
    input.tokenStart ≤ input.endMark.getD input.pos ∧
      input.endMark.getD input.pos ≤ input.pos := by
  cases hmark : input.endMark with
  | none => exact ⟨h.tokenStart_le, Nat.le_refl _⟩
  | some mark => exact h.endMark mark hmark

/-- A token ends at the mark, or at the position; its start never has to stand in for either. -/
theorem offsets_of_token? {token : Token} (htoken : input.token? = some token) :
    token.start = input.tokenStart ∧ token.stop = input.endMark.getD input.pos ∧
      token.start ≤ token.stop ∧ token.stop ≤ source.size := by
  obtain ⟨hstart, hpos⟩ := h.getD_endMark
  obtain ⟨kind, -, rfl⟩ := Option.map_eq_some_iff.mp htoken
  have hstop : max (input.endMark.getD input.pos) input.tokenStart =
      input.endMark.getD input.pos := Nat.max_eq_left hstart
  refine ⟨rfl, hstop, Nat.le_max_right _ _, ?_⟩
  exact Nat.le_trans (Nat.le_of_eq hstop) (Nat.le_trans hpos h.pos_le)

end Ordered

/-! ## Characters -/

/-- The offsets of an input lie at characters of a source, or at the end of its text. -/
structure OnCharacters (source : Source) (input : SourceInput) : Prop where
  source_eq : input.cursor.source = source
  tokenStart : (String.Pos.Raw.mk input.tokenStart).IsValid source.text
  pos : (String.Pos.Raw.mk input.pos).IsValid source.text
  endMark : ∀ mark, input.endMark = some mark → (String.Pos.Raw.mk mark).IsValid source.text

namespace OnCharacters

variable {source : Source} {input : SourceInput}

theorem ofCursor {start : Nat} (h : (String.Pos.Raw.mk start).IsValid source.text) :
    OnCharacters source (ofCursor (source.cursor start)) := by
  have hle : start ≤ source.size := h.le_utf8ByteSize
  have hstart : (SourceInput.ofCursor (source.cursor start)).pos = start := Nat.min_eq_left hle
  have hvalid : (String.Pos.Raw.mk (SourceInput.ofCursor (source.cursor start)).pos).IsValid
      source.text := by rwa [hstart]
  refine ⟨rfl, hvalid, hvalid, ?_⟩
  intro mark hmark
  cases hmark

variable (h : OnCharacters source input)

include h

theorem moveTo {pos : Nat} (hpos : input.Forward pos) : OnCharacters source (input.moveTo pos) where
  source_eq := h.source_eq
  tokenStart := h.tokenStart
  pos := by
    have hvalid := hpos.isValid
    rw [h.source_eq] at hvalid
    exact hvalid h.pos
  endMark := h.endMark

theorem startHere : OnCharacters source input.startHere where
  source_eq := h.source_eq
  tokenStart := h.pos
  pos := h.pos
  endMark := by
    intro mark hmark
    obtain ⟨old, hold, rfl⟩ := Option.map_eq_some_iff.mp hmark
    rw [Nat.max_def]
    split
    · exact h.endMark old hold
    · exact h.pos

theorem markEnd : OnCharacters source (Input.markEnd input) where
  source_eq := h.source_eq
  tokenStart := h.tokenStart
  pos := h.pos
  endMark := by
    intro mark hmark
    cases hmark
    exact h.pos

theorem recognize (kind : Token.Kind) : OnCharacters source (Input.recognize kind input) where
  source_eq := h.source_eq
  tokenStart := h.tokenStart
  pos := h.pos
  endMark := h.endMark

theorem restart : OnCharacters source input.restart where
  source_eq := h.source_eq
  tokenStart := h.pos
  pos := h.pos
  endMark := by
    intro mark hmark
    cases hmark

theorem of_reaches {last : SourceInput} (hlast : Reaches input last) :
    OnCharacters source last := by
  induction hlast with
  | refl => exact h
  | moveTo _ hpos ih => exact ih.moveTo hpos
  | startHere _ ih => exact ih.startHere
  | markEnd _ ih => exact ih.markEnd
  | recognize kind _ ih => exact ih.recognize kind
  | restart _ ih => exact ih.restart

/-- A token is the text between two positions. -/
theorem text_of_token? (hordered : Ordered source input) {token : Token}
    (htoken : input.token? = some token) :
    ∃ first last : source.text.Pos, first.offset.byteIdx = token.start ∧
      last.offset.byteIdx = token.stop ∧ token.text source = source.text.extract first last ∧
      (token.text source).utf8ByteSize = token.length := by
  obtain ⟨hstart, hstop, hle, -⟩ := hordered.offsets_of_token? htoken
  have hfirst : (String.Pos.Raw.mk token.start).IsValid source.text := by
    rw [hstart]
    exact h.tokenStart
  have hlast : (String.Pos.Raw.mk token.stop).IsValid source.text := by
    rw [hstop]
    cases hmark : input.endMark with
    | none => exact h.pos
    | some mark => exact h.endMark mark hmark
  have hbetween : source.text.pos _ hfirst ≤ source.text.pos _ hlast := hle
  have htext : token.text source = source.text.extract _ _ := Source.slice_pos hbetween
  refine ⟨source.text.pos _ hfirst, source.text.pos _ hlast, rfl, rfl, htext, ?_⟩
  rw [htext, Source.utf8ByteSize_extract hbetween]
  rfl

end OnCharacters

/-! ## Sessions -/

/-- **The offsets of an input stay in order.**  After any commands, from any offset of a source, the
token's start, the end mark and the position follow one another within the text, and a token ends at
the mark, or at the position if there is none.  From a character all of them lie at characters, and
the token's text is what stands between its ends. -/
theorem Session.token_between_offsets (source : Source) (start : Nat)
    (commands : List SourceInput.Command) :
    let input := ((Session.start (ofCursor (source.cursor start))).after commands).input
    Ordered source input ∧
    (∀ token, input.token? = some token →
      token.start = input.tokenStart ∧ token.stop = input.endMark.getD input.pos ∧
        token.start ≤ token.stop ∧ token.stop ≤ source.size) ∧
    ((String.Pos.Raw.mk start).IsValid source.text →
      OnCharacters source input ∧
      ∀ token, input.token? = some token →
        ∃ first last : source.text.Pos, first.offset.byteIdx = token.start ∧
          last.offset.byteIdx = token.stop ∧ token.text source = source.text.extract first last ∧
          (token.text source).utf8ByteSize = token.length) := by
  intro input
  have hreaches : Reaches (ofCursor (source.cursor start)) input :=
    (Session.from_after (Session.from_start _) (within_ofCursor source start) commands).input
  have hordered := (Ordered.ofCursor source start).of_reaches hreaches
  refine ⟨hordered, ?_, ?_⟩
  · intro token htoken
    exact hordered.offsets_of_token? htoken
  · intro hstart
    have hcharacters := (OnCharacters.ofCursor hstart).of_reaches hreaches
    refine ⟨hcharacters, ?_⟩
    intro token htoken
    exact hcharacters.text_of_token? hordered htoken

end SourceInput

end AsmBlock
