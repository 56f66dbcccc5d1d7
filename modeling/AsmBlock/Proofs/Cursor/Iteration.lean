import AsmBlock.Proofs.Cursor.Decoding

/-!
# Reading a source to its end

`Cursor.readAll` reads a character and steps behind it until the text is used up.  It never faults
and ends at the end of the text.  From inside a character it reads one replacement character for
each byte up to the next character, and from there on the characters of the text, each at its own
offset (`Cursor.readAll_decodes`).
-/

namespace AsmBlock

namespace Cursor

/-! ## The loop -/

/-- A position at which a cursor stood, and the character it read there. -/
structure Visit where
  pos : Nat
  char : Char
  deriving DecidableEq, Repr

/-- Reads and steps while there is text left: what was read, and the cursor behind it. -/
def readAll (cursor : Cursor) : Except Fault (List Visit × Cursor) :=
  match hend : cursor.atEnd with
  | .error fault => .error fault
  | .ok true => .ok ([], cursor)
  | .ok false =>
    match cursor.char with
    | .error fault => .error fault
    | .ok char =>
      match hnext : cursor.next with
      | .error fault => .error fault
      | .ok behind =>
        have : behind.source.size - behind.pos < cursor.source.size - cursor.pos := by
          have hpos := atEnd_eq_ok_false_iff.mp hend
          obtain ⟨hsource, hlt, -⟩ := next_progress hnext hpos
          rw [hsource]
          omega
        (readAll behind).map fun read => (⟨cursor.pos, char⟩ :: read.1, read.2)
termination_by cursor.source.size - cursor.pos

theorem readAll_of_atEnd {cursor : Cursor} (hend : cursor.atEnd = .ok true) :
    cursor.readAll = .ok ([], cursor) := by
  rw [readAll]
  split
  · next h => rw [hend] at h; cases h
  · rfl
  · next h => rw [hend] at h; cases h

theorem readAll_of_next {cursor behind last : Cursor} {char : Char} {visits : List Visit}
    (hend : cursor.atEnd = .ok false) (hchar : cursor.char = .ok char)
    (hnext : cursor.next = .ok behind) (hrest : behind.readAll = .ok (visits, last)) :
    cursor.readAll = .ok (⟨cursor.pos, char⟩ :: visits, last) := by
  rw [readAll]
  split
  · next h => rw [hend] at h; cases h
  · next h => rw [hend] at h; cases h
  · simp only [hchar]
    split
    · next h => rw [hnext] at h; cases h
    · next h =>
      rw [hnext] at h
      cases h
      rw [hrest]
      rfl

/-! ## The visits to characters -/

/-- The visits to characters that follow one another from the offset `pos` on. -/
def visits (pos : Nat) : List Char → List Visit
  | [] => []
  | char :: chars => ⟨pos, char⟩ :: visits (pos + char.utf8Size) chars

/-- The visits to bytes inside a character. -/
def visitsInside (pos count : Nat) : List Visit :=
  (List.range' pos count).map fun pos => ⟨pos, Utf8.replacement⟩

theorem map_char_visits (pos : Nat) (chars : List Char) :
    (visits pos chars).map Visit.char = chars := by
  induction chars generalizing pos with
  | nil => rfl
  | cons char chars ih => rw [visits, List.map_cons, ih]

theorem map_char_visitsInside (pos count : Nat) :
    (visitsInside pos count).map Visit.char = List.replicate count Utf8.replacement := by
  rw [visitsInside, List.map_map]
  exact List.map_const'.trans (congrArg (List.replicate · _) List.length_range')

theorem map_pos_visitsInside (pos count : Nat) :
    (visitsInside pos count).map Visit.pos = List.range' pos count := by
  rw [visitsInside, List.map_map]
  exact List.map_id _

section Reading

variable {source : Source} {pos gap : Nat} {rest : List Char}

theorem readAll_of_restAt (h : source.RestAt pos rest) :
    (Cursor.mk source pos).readAll = .ok (visits pos rest, ⟨source, source.size⟩) := by
  induction rest generalizing pos with
  | nil =>
    have hpos : pos = source.size := h.pos_add_size
    rw [hpos]
    exact readAll_of_atEnd (atEnd_size source)
  | cons char rest ih =>
    exact readAll_of_next (atEnd_of_restAt h) (char_of_restAt h) (next_of_restAt h) (ih h.tail)

theorem readAll_of_ahead (h : source.Ahead pos gap rest) :
    (Cursor.mk source pos).readAll =
      .ok (visitsInside pos gap ++ visits (pos + gap) rest, ⟨source, source.size⟩) := by
  -- byte by byte up to the next character
  induction gap generalizing pos with
  | zero => exact readAll_of_restAt h.restAt
  | succ gap ih =>
    have hle := h.restAt.pos_le
    have hpos : pos < source.size := by omega
    have hvalid := h.inside pos (Nat.le_refl _) (by omega)
    have hrest := ih h.succ
    rw [Nat.add_assoc, Nat.add_comm 1] at hrest
    exact readAll_of_next (atEnd_eq_ok_false_iff.mpr hpos) (char_of_not_isValid hpos hvalid)
      (next_of_not_isValid hpos hvalid) hrest

end Reading

/-! ## The positions visited -/

/-- The offsets of characters from the offset `pos` on, and the offset behind the last of them. -/
def boundaries (pos : Nat) (chars : List Char) : List Nat :=
  (visits pos chars).map Visit.pos ++ [pos + Utf8.size chars]

theorem boundaries_cons (pos : Nat) (char : Char) (chars : List Char) :
    boundaries pos (char :: chars) = pos :: boundaries (pos + char.utf8Size) chars := by
  rw [boundaries, boundaries, Utf8.size_cons, ← Nat.add_assoc]
  rfl

section Boundaries

variable {source : Source} {pos : Nat} {rest : List Char}

/-- No character starts inside another one. -/
theorem le_of_isValid {char : Char} (h : source.RestAt pos (char :: rest)) {other : Nat}
    (hother : (String.Pos.Raw.mk other).IsValid source.text) (hlt : pos < other) :
    pos + char.utf8Size ≤ other := by
  obtain ⟨here, hend, rfl, rfl⟩ := h.exists_pos
  have hbehind : here < source.text.pos _ hother := hlt
  have hnext : (here.next hend).offset.byteIdx ≤ other :=
    String.Pos.next_le_of_lt (h := hend) hbehind
  rwa [here.byteIdx_offset_next hend] at hnext

theorem mem_boundaries_iff (h : source.RestAt pos rest) (other : Nat) :
    other ∈ boundaries pos rest ↔ pos ≤ other ∧ (String.Pos.Raw.mk other).IsValid source.text := by
  induction rest generalizing pos with
  | nil =>
    have hpos : pos = source.size := h.pos_add_size
    constructor
    · intro hmem
      have hother : other = pos := List.mem_singleton.mp hmem
      rw [hother]
      exact ⟨Nat.le_refl _, h.isValid⟩
    · rintro ⟨hle, hvalid⟩
      have hlast : other ≤ source.size := hvalid.le_utf8ByteSize
      exact List.mem_singleton.mpr (Nat.le_antisymm (hpos ▸ hlast) hle)
  | cons char rest ih =>
    have hwidth := char.utf8Size_pos
    rw [boundaries_cons, List.mem_cons, ih h.tail]
    constructor
    · rintro (rfl | ⟨hle, hvalid⟩)
      · exact ⟨Nat.le_refl _, h.isValid⟩
      · exact ⟨by omega, hvalid⟩
    · rintro ⟨hle, hvalid⟩
      rcases Nat.eq_or_lt_of_le hle with heq | hlt
      · exact .inl heq.symm
      · exact .inr ⟨le_of_isValid h hvalid hlt, hvalid⟩

theorem pairwise_boundaries (h : source.RestAt pos rest) :
    (boundaries pos rest).Pairwise (· < ·) := by
  induction rest generalizing pos with
  | nil => exact List.pairwise_singleton _ _
  | cons char rest ih =>
    have hwidth := char.utf8Size_pos
    rw [boundaries_cons]
    refine List.pairwise_cons.mpr ⟨?_, ih h.tail⟩
    intro bound hbound
    have hle := ((mem_boundaries_iff h.tail bound).mp hbound).1
    omega

end Boundaries

/-- **Reading a source to its end decodes it.**  From any offset the loop ends at the end of the
text.  It reads a replacement character for each byte up to the next character and then the
characters of the text from there on, and it visits these bytes and then every offset at which a
character starts, and the end of the text, in order. -/
theorem readAll_decodes (source : Source) (pos : Nat) :
    let first := min pos source.size
    ∃ (next : source.text.Pos) (read : List Visit) (bounds : List Nat),
      (source.cursor pos).readAll = .ok (read, ⟨source, source.size⟩) ∧
      first ≤ next.offset.byteIdx ∧
      (∀ here : source.text.Pos, first ≤ here.offset.byteIdx → next ≤ here) ∧
      read.map Visit.char =
        List.replicate (next.offset.byteIdx - first) Utf8.replacement ++
          (source.text.extract next source.text.endPos).toList ∧
      read.map Visit.pos ++ [source.size] =
        List.range' first (next.offset.byteIdx - first) ++ bounds ∧
      bounds.Pairwise (· < ·) ∧
      ∀ bound, bound ∈ bounds ↔
        next.offset.byteIdx ≤ bound ∧ (String.Pos.Raw.mk bound).IsValid source.text := by
  intro first
  obtain ⟨gap, rest, hahead⟩ := source.exists_ahead (Nat.min_le_right pos source.size)
  obtain ⟨next, hnext, hleast⟩ := hahead.exists_pos
  have hgap : next.offset.byteIdx - first = gap := by omega
  have hrest : rest = (source.text.extract next source.text.endPos).toList :=
    (hnext ▸ hahead.restAt).unique (source.restAt_extract_endPos next)
  have hsize := hahead.restAt.pos_add_size
  refine ⟨next, _, boundaries (first + gap) rest, readAll_of_ahead hahead, by omega, hleast, ?_, ?_,
    pairwise_boundaries hahead.restAt, ?_⟩
  · rw [List.map_append, map_char_visitsInside, map_char_visits, hgap, hrest]
  · rw [List.map_append, map_pos_visitsInside, hgap, List.append_assoc, boundaries, hsize]
  · intro bound
    rw [hnext]
    exact mem_boundaries_iff hahead.restAt bound

/-- From the second byte of an accented letter, with a NUL behind it. -/
example : ((Source.ofText "é\x00\x7d" (by decide)).cursor 1).readAll.map Prod.fst =
    .ok [⟨1, '\uFFFD'⟩, ⟨2, '\x00'⟩, ⟨3, '}'⟩] := by
  cbv

end Cursor

end AsmBlock
