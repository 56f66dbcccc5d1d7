import AsmBlock.Cursor

/-!
# The characters of a source

`Source.RestAt` says which characters are left of a text at a byte offset, and `Source.Ahead` says
it for offsets that may also lie inside a character.  Both fit the positions of the text and the
slices of a source.
-/

namespace AsmBlock

namespace Utf8

/-- The number of bytes in which characters are encoded. -/
def size : List Char → Nat
  | [] => 0
  | char :: chars => char.utf8Size + size chars

@[simp] theorem size_nil : size [] = 0 := rfl

@[simp] theorem size_cons (char : Char) (chars : List Char) :
    size (char :: chars) = char.utf8Size + size chars := rfl

@[simp] theorem size_append (front back : List Char) :
    size (front ++ back) = size front + size back := by
  induction front with
  | nil => rw [List.nil_append, size_nil, Nat.zero_add]
  | cons char front ih => rw [List.cons_append, size_cons, size_cons, ih, Nat.add_assoc]

theorem length_le_size (chars : List Char) : chars.length ≤ size chars := by
  induction chars with
  | nil => exact Nat.le_refl 0
  | cons char chars ih =>
    have hpos := char.utf8Size_pos
    simp only [List.length_cons, size_cons]
    omega

theorem utf8ByteSize_ofList (chars : List Char) :
    (String.ofList chars).utf8ByteSize = size chars := by
  induction chars with
  | nil => rfl
  | cons char chars ih =>
    rw [← List.singleton_append, String.ofList_append, String.utf8ByteSize_append, ih,
      ← String.singleton_eq_ofList, String.utf8ByteSize_singleton, List.singleton_append, size_cons]

theorem size_toList (text : String) : size text.toList = text.utf8ByteSize := by
  rw [← utf8ByteSize_ofList, String.ofList_toList]

end Utf8

namespace Source

variable {source : Source} {pos : Nat} {rest : List Char}

/-- At the byte offset `pos` the characters `rest` are left of the text. -/
def RestAt (source : Source) (pos : Nat) (rest : List Char) : Prop :=
  ∃ before, source.text.toList = before ++ rest ∧ Utf8.size before = pos

theorem restAt_zero (source : Source) : source.RestAt 0 source.text.toList :=
  ⟨[], rfl, rfl⟩

theorem RestAt.pos_add_size (h : source.RestAt pos rest) :
    pos + Utf8.size rest = source.size := by
  obtain ⟨before, htext, rfl⟩ := h
  rw [← Utf8.size_append, ← htext, Utf8.size_toList, Source.size]

theorem RestAt.pos_le (h : source.RestAt pos rest) : pos ≤ source.size :=
  Nat.le.intro h.pos_add_size

theorem RestAt.length_lt (h : source.RestAt pos rest) : rest.length < offsetLimit := by
  have hsize := h.pos_add_size
  have hlength := Utf8.length_le_size rest
  have hlimit := source.size_lt_offsetLimit
  omega

theorem RestAt.skip {chars : List Char} (h : source.RestAt pos (chars ++ rest)) :
    source.RestAt (pos + Utf8.size chars) rest := by
  obtain ⟨before, htext, rfl⟩ := h
  exact ⟨before ++ chars, by rw [htext, List.append_assoc], Utf8.size_append before chars⟩

theorem RestAt.tail {char : Char} (h : source.RestAt pos (char :: rest)) :
    source.RestAt (pos + char.utf8Size) rest := by
  have hskip : source.RestAt (pos + Utf8.size [char]) rest := RestAt.skip h
  simpa using hskip

theorem RestAt.restAt_size (h : source.RestAt pos rest) : source.RestAt source.size [] := by
  have hall : source.RestAt pos (rest ++ []) := by simpa using h
  have hskip := hall.skip
  rwa [h.pos_add_size] at hskip

theorem restAt_of_splits {here : source.text.Pos} {before after : String}
    (h : here.Splits before after) : source.RestAt here.offset.byteIdx after.toList := by
  refine ⟨before.toList, ?_, ?_⟩
  · rw [← String.toList_append, ← h.eq_append]
  · rw [Utf8.size_toList, h.offset_eq_rawEndPos]
    rfl

theorem RestAt.exists_splits (h : source.RestAt pos rest) :
    ∃ (here : source.text.Pos) (before : String),
      here.offset.byteIdx = pos ∧ here.Splits before (String.ofList rest) := by
  obtain ⟨before, htext, rfl⟩ := h
  have happend : source.text = String.ofList before ++ String.ofList rest := by
    rw [← String.ofList_append, ← htext, String.ofList_toList]
  have hsplits := String.Pos.splits_ofEqAppend happend
  refine ⟨String.Pos.ofEqAppend happend, String.ofList before, ?_, hsplits⟩
  rw [hsplits.offset_eq_rawEndPos, ← Utf8.utf8ByteSize_ofList]
  rfl

theorem RestAt.unique {other : List Char} (h : source.RestAt pos rest)
    (hother : source.RestAt pos other) : rest = other := by
  obtain ⟨here, before, hpos, hsplits⟩ := h.exists_splits
  obtain ⟨there, before', hpos', hsplits'⟩ := hother.exists_splits
  have hat : there = here := String.Pos.ext (String.Pos.Raw.ext (hpos'.trans hpos.symm))
  subst hat
  exact String.ofList_injective (hsplits.eq_right hsplits')

theorem RestAt.exists_pos {char : Char} (h : source.RestAt pos (char :: rest)) :
    ∃ (here : source.text.Pos) (hend : here ≠ source.text.endPos),
      here.offset.byteIdx = pos ∧ here.get hend = char := by
  obtain ⟨here, before, hpos, hsplits⟩ := h.exists_splits
  have hsingleton : here.Splits before (String.singleton char ++ String.ofList rest) := by
    rwa [String.singleton_eq_ofList, ← String.ofList_append]
  have hend := hsingleton.ne_endPos_of_singleton
  have hright := congrArg String.toList (hsingleton.eq_right (here.splits_next_right hend))
  rw [String.toList_append, String.toList_append, String.toList_singleton,
    String.toList_singleton] at hright
  exact ⟨here, hend, hpos, (List.cons.inj hright).1.symm⟩

theorem RestAt.isValid (h : source.RestAt pos rest) :
    (String.Pos.Raw.mk pos).IsValid source.text := by
  obtain ⟨here, -, rfl, -⟩ := h.exists_splits
  exact here.isValid

/-- Characters are left exactly at the boundaries of characters. -/
theorem exists_restAt_iff : (∃ rest, source.RestAt pos rest) ↔
    (String.Pos.Raw.mk pos).IsValid source.text := by
  constructor
  · rintro ⟨rest, h⟩
    exact h.isValid
  · intro h
    exact ⟨_, restAt_of_splits (source.text.pos ⟨pos⟩ h).splits⟩

/-! ## Text between positions -/

theorem extract_buffer (source : Source) (start : Nat) {stop : Nat} (hstop : stop ≤ source.size) :
    source.buffer.extract start stop = source.text.toByteArray.extract start stop := by
  have hempty : stop - source.text.toByteArray.size = 0 := Nat.sub_eq_zero_of_le hstop
  rw [source.buffer_eq, padded, ByteArray.extract_append, hempty]
  have hzeros : ∀ (zeros : ByteArray) (k : Nat), zeros.extract k 0 = ByteArray.empty := by
    intro zeros k
    rw [ByteArray.extract_eq_empty_iff]
    omega
  rw [hzeros, ByteArray.append_empty]

section Between

variable {start stop : source.text.Pos}

theorem RestAt.extract (hle : start ≤ stop) (h : source.RestAt stop.offset.byteIdx rest) :
    source.RestAt start.offset.byteIdx ((source.text.extract start stop).toList ++ rest) := by
  have hslice := (source.text.extract_eq_copy_slice start stop hle).symm
  obtain ⟨before, after, hstart, hstop⟩ := String.copy_slice_eq_iff_splits.mp ⟨hle, hslice⟩
  rw [h.unique (restAt_of_splits hstop), ← String.toList_append]
  exact restAt_of_splits hstart

theorem restAt_extract_endPos (source : Source) (here : source.text.Pos) :
    source.RestAt here.offset.byteIdx (source.text.extract here source.text.endPos).toList := by
  have hend : source.RestAt source.text.endPos.offset.byteIdx [] := source.restAt_zero.restAt_size
  have hextract := hend.extract here.le_endPos
  rwa [List.append_nil] at hextract

theorem RestAt.extract_eq {chars : List Char}
    (h : source.RestAt start.offset.byteIdx (chars ++ rest))
    (hstop : stop.offset.byteIdx = start.offset.byteIdx + Utf8.size chars) :
    (source.text.extract start stop).toList = chars := by
  have hle : start ≤ stop := by
    rw [String.Pos.le_iff, String.Pos.Raw.le_iff, hstop]
    exact Nat.le_add_right _ _
  have hrest := h.skip
  rw [← hstop] at hrest
  exact List.append_cancel_right ((hrest.extract hle).unique h)

theorem utf8ByteSize_extract (hle : start ≤ stop) :
    (source.text.extract start stop).utf8ByteSize =
      stop.offset.byteIdx - start.offset.byteIdx := by
  obtain ⟨rest, hrest⟩ : ∃ rest, source.RestAt stop.offset.byteIdx rest :=
    exists_restAt_iff.mpr stop.isValid
  have hstart := (hrest.extract hle).pos_add_size
  have hstop := hrest.pos_add_size
  rw [Utf8.size_append, Utf8.size_toList] at hstart
  omega

theorem slice_pos (hle : start ≤ stop) :
    source.slice start.offset.byteIdx stop.offset.byteIdx = source.text.extract start stop := by
  have hstop : stop.offset.byteIdx ≤ source.size := stop.isValid.le_utf8ByteSize
  rw [slice, if_pos ⟨hle, hstop⟩, source.extract_buffer _ hstop, ← String.toByteArray_extract,
    Utf8.fromUTF8?_toByteArray, Option.getD_some]

end Between

/-! ## Offsets inside a character -/

/-- The first character that starts at or behind the byte offset `pos` starts `gap` bytes behind it,
and from there on the characters `rest` are left. -/
structure Ahead (source : Source) (pos gap : Nat) (rest : List Char) : Prop where
  restAt : source.RestAt (pos + gap) rest
  inside : ∀ k, pos ≤ k → k < pos + gap → ¬ (String.Pos.Raw.mk k).IsValid source.text

theorem RestAt.ahead (h : source.RestAt pos rest) : source.Ahead pos 0 rest := by
  refine ⟨h, ?_⟩
  intro k hle hlt
  omega

theorem Ahead.succ {gap : Nat} (h : source.Ahead pos (gap + 1) rest) :
    source.Ahead (pos + 1) gap rest := by
  refine ⟨?_, ?_⟩
  · have hrest := h.restAt
    rwa [show pos + (gap + 1) = pos + 1 + gap by omega] at hrest
  · intro k hle hlt
    exact h.inside k (by omega) (by omega)

/-- The first position at or behind an offset is that of the next character. -/
theorem Ahead.exists_pos {gap : Nat} (h : source.Ahead pos gap rest) :
    ∃ next : source.text.Pos, next.offset.byteIdx = pos + gap ∧
      ∀ here : source.text.Pos, pos ≤ here.offset.byteIdx → next ≤ here := by
  obtain ⟨next, before, hnext, -⟩ := h.restAt.exists_splits
  refine ⟨next, hnext, ?_⟩
  intro here hle
  apply Nat.not_lt.mp
  intro hlt
  exact h.inside _ hle (hnext ▸ hlt) here.isValid

/-- Text put behind a text leaves the boundaries of characters within it as they were. -/
theorem Ahead.append {gap : Nat} (h : source.Ahead pos gap rest) {whole : Source} {tail : String}
    (hwhole : whole.text = source.text ++ tail) : whole.Ahead pos gap (rest ++ tail.toList) := by
  refine ⟨?_, ?_⟩
  · obtain ⟨before, htext, hsize⟩ := h.restAt
    exact ⟨before, by rw [hwhole, String.toList_append, htext, List.append_assoc], hsize⟩
  · intro k hle hlt hvalid
    rw [hwhole, String.Pos.Raw.isValid_append] at hvalid
    rcases hvalid with hvalid | ⟨hend, -⟩
    · exact h.inside k hle hlt hvalid
    · have hlast : source.size ≤ k := hend
      have hpos := h.restAt.pos_le
      omega

/-- There is a next character, or the end, behind every offset of the text. -/
theorem exists_ahead (hpos : pos ≤ source.size) : ∃ gap rest, source.Ahead pos gap rest := by
  induction hleft : source.size - pos generalizing pos with
  | zero =>
    have hend : pos = source.size := by omega
    exact ⟨0, [], hend ▸ (source.restAt_zero.restAt_size).ahead⟩
  | succ left ih =>
    by_cases hvalid : (String.Pos.Raw.mk pos).IsValid source.text
    · obtain ⟨rest, hrest⟩ := exists_restAt_iff.mpr hvalid
      exact ⟨0, rest, hrest.ahead⟩
    · have hnext : pos + 1 ≤ source.size := by omega
      obtain ⟨gap, rest, hrest, hinside⟩ := ih hnext (by omega)
      refine ⟨gap + 1, rest, ?_, ?_⟩
      · rwa [show pos + (gap + 1) = pos + 1 + gap by omega]
      · intro k hle hlt
        by_cases hk : k = pos
        · rwa [hk]
        · exact hinside k (by omega) (by omega)

end Source

end AsmBlock
