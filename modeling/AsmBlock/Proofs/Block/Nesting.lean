import AsmBlock.Proofs.Block.Marks
import AsmBlock.Proofs.Block.Recognition

/-!
# Blocks inside a block

The braces that a scan counts come in pairs, one for each block inside the one that is scanned.  The
pairs are read off the body that the scan went through (`Body.pairs`), so that they are apart or one
inside the other.  From behind an opening brace a scan of its own stops at the brace that closes it
(`blocks_nest`).
-/

namespace AsmBlock

namespace Block

/-! ## Pairs of braces -/

/-- The byte offsets of two matching braces, and the number of braces around them. -/
structure Pair where
  opening : Nat
  closing : Nat
  depth : Nat
  deriving DecidableEq, Repr

namespace Pair

/-- What a scan reports at the two braces. -/
def marks (pair : Pair) : List (Nat × Log.Event) :=
  [(pair.opening, .braceOpened (pair.depth + 1)), (pair.closing, .braceClosed pair.depth)]

variable {pair : Pair} {pos depth : Nat}

theorem braceOpened_mem_marks_iff : (pos, .braceOpened depth) ∈ pair.marks ↔
    pos = pair.opening ∧ depth = pair.depth + 1 := by
  simp [marks]

theorem braceClosed_mem_marks_iff : (pos, .braceClosed depth) ∈ pair.marks ↔
    pos = pair.closing ∧ depth = pair.depth := by
  simp [marks]

/-- Two pairs are the same, one behind the other, or one inside the other. -/
inductive Apart (first second : Pair) : Prop where
  | same (h : first = second)
  | before (h : first.closing < second.opening)
  | behind (h : second.closing < first.opening)
  | inside (hopening : second.opening < first.opening) (hclosing : first.closing < second.closing)
  | around (hopening : first.opening < second.opening) (hclosing : second.closing < first.closing)

end Pair

namespace Body

/-- The matching braces of a body that starts at the offset `pos` inside `depth` braces. -/
def pairs (depth pos : Nat) : Body → List Pair
  | nil => []
  | plain char _ rest => rest.pairs depth (pos + char.utf8Size)
  | string text _ rest | comment text _ rest =>
    rest.pairs depth (pos + (1 + (Utf8.size text + 1)))
  | braces inner rest =>
    ⟨pos, pos + 1 + Utf8.size inner.chars, depth⟩ ::
      (inner.pairs (depth + 1) (pos + 1) ++
        rest.pairs depth (pos + 1 + Utf8.size inner.chars + 1))

/-- A closed string or comment has no marks. -/
theorem marks_hidden {context : Context} {opener stop : Char} {depth : Nat}
    (hopener : (State.mk .code depth).move (.ofChar opener) = .next ⟨context, depth⟩ none)
    (hstop : context.terminator? = some stop) {text : List Char} (htext : stop ∉ text) (pos : Nat)
    (chars : List Char) :
    (State.mk .code depth).marks pos (opener :: (text ++ stop :: chars)) =
      (State.mk .code depth).marks
        (pos + (opener.utf8Size + (Utf8.size text + stop.utf8Size))) chars := by
  have hclose : (State.mk context depth).Passes [stop] ⟨.code, depth⟩ [] :=
    (State.passes_nil _).cons (State.move_terminator hstop depth)
  have hitem : (State.mk .code depth).Passes (opener :: (text ++ [stop])) ⟨.code, depth⟩ [] :=
    ((State.passes_hidden hstop htext depth).append hclose).cons hopener
  have hmarks := hitem.marks_append pos chars
  rw [hitem.marks_eq_nil, List.nil_append, Utf8.size_cons, Utf8.size_append, Utf8.size_cons,
    Utf8.size_nil, Nat.add_zero, List.cons_append, List.append_assoc] at hmarks
  exact hmarks

/-- A walk through a body has the marks of its pairs. -/
theorem mem_marks_iff (body : Body) (depth pos : Nat) (mark : Nat × Log.Event) :
    mark ∈ (State.mk .code depth).marks pos body.chars ↔
      mark ∈ (body.pairs depth pos).flatMap Pair.marks := by
  induction body generalizing depth pos with
  | nil => simp [chars, pairs, State.marks]
  | plain char hchar rest ih =>
    rw [chars, State.marks_cons_of_next (State.move_code_of_plain hchar depth), pairs]
    exact ih depth _
  | string text htext rest ih =>
    have hopener : (State.mk .code depth).move (.ofChar '"') = .next ⟨.string, depth⟩ none := rfl
    rw [chars, marks_hidden hopener rfl htext, pairs]
    exact ih depth _
  | comment text htext rest ih =>
    have hopener : (State.mk .code depth).move (.ofChar ';') = .next ⟨.comment, depth⟩ none := rfl
    rw [chars, marks_hidden hopener rfl htext, pairs]
    exact ih depth _
  | braces inner rest ihinner ihrest =>
    have hopen : (State.mk .code depth).move (.ofChar '{') =
        .next ⟨.code, depth + 1⟩ (some (.braceOpened (depth + 1))) := rfl
    have hclose : (State.mk .code (depth + 1)).move (.ofChar '}') =
        .next ⟨.code, depth⟩ (some (.braceClosed depth)) := rfl
    have hsize : '{'.utf8Size = 1 ∧ '}'.utf8Size = 1 := ⟨rfl, rfl⟩
    rw [chars, State.marks_cons_of_next hopen, (inner.passes (depth + 1)).marks_append,
      State.marks_cons_of_next hclose, hsize.1, hsize.2, pairs]
    simp only [Option.toList_some, List.map_cons, List.map_nil, List.mem_append, List.mem_cons,
      List.not_mem_nil, or_false, ihinner, ihrest, List.flatMap_cons, List.flatMap_append,
      Pair.marks, or_assoc]
    -- the closing brace stands behind the inner body, and its pair in front of the inner pairs
    exact or_congr_right or_left_comm

section Pairs

variable {body : Body} {depth pos : Nat}

theorem bounds_of_mem_pairs {pair : Pair} (h : pair ∈ body.pairs depth pos) :
    pos ≤ pair.opening ∧ pair.opening < pair.closing ∧
      pair.closing < pos + Utf8.size body.chars := by
  induction body generalizing depth pos with
  | nil => cases h
  | plain char _ rest ih =>
    have hpair := ih h
    rw [chars, Utf8.size_cons]
    omega
  | string text _ rest ih | comment text _ rest ih =>
    have hpair := ih h
    have hsize : '"'.utf8Size = 1 ∧ ';'.utf8Size = 1 ∧ '\n'.utf8Size = 1 := ⟨rfl, rfl, rfl⟩
    rw [chars, Utf8.size_cons, Utf8.size_append, Utf8.size_cons]
    omega
  | braces inner rest ihinner ihrest =>
    have hsize : '{'.utf8Size = 1 ∧ '}'.utf8Size = 1 := ⟨rfl, rfl⟩
    rw [chars, Utf8.size_cons, Utf8.size_append, Utf8.size_cons]
    rw [pairs, List.mem_cons, List.mem_append] at h
    rcases h with rfl | h | h
    · simp only
      omega
    · have hpair := ihinner h
      omega
    · have hpair := ihrest h
      omega

/-- Pairs of a body do not cross. -/
theorem apart_of_mem_pairs {first second : Pair} (hfirst : first ∈ body.pairs depth pos)
    (hsecond : second ∈ body.pairs depth pos) : first.Apart second := by
  induction body generalizing depth pos with
  | nil => cases hfirst
  | plain _ _ _ ih | string _ _ _ ih | comment _ _ _ ih => exact ih hfirst hsecond
  | braces inner rest ihinner ihrest =>
    rw [pairs, List.mem_cons, List.mem_append] at hfirst hsecond
    -- the outer pair holds those of the inner body, and all of them end before those of the rest
    rcases hfirst with rfl | hfirst | hfirst
    · rcases hsecond with rfl | hsecond | hsecond
      · exact .same rfl
      · have hbounds := bounds_of_mem_pairs hsecond
        exact .around (by simp only; omega) (by simp only; omega)
      · have hbounds := bounds_of_mem_pairs hsecond
        exact .before (by simp only; omega)
    · have hbounds := bounds_of_mem_pairs hfirst
      rcases hsecond with rfl | hsecond | hsecond
      · exact .inside (by simp only; omega) (by simp only; omega)
      · exact ihinner hfirst hsecond
      · have hbounds' := bounds_of_mem_pairs hsecond
        exact .before (by omega)
    · have hbounds := bounds_of_mem_pairs hfirst
      rcases hsecond with rfl | hsecond | hsecond
      · exact .behind (by simp only; omega)
      · have hbounds' := bounds_of_mem_pairs hsecond
        exact .behind (by omega)
      · exact ihrest hfirst hsecond

/-- Behind a closed string or comment the text goes on. -/
theorem restAt_behind_hidden {source : Source} {opener stop : Char} {text chars : List Char}
    (h : source.RestAt pos (opener :: (text ++ stop :: chars))) :
    source.RestAt (pos + (opener.utf8Size + (Utf8.size text + stop.utf8Size))) chars := by
  have hitem : source.RestAt pos ((opener :: (text ++ [stop])) ++ chars) := by simpa using h
  have hbehind := hitem.skip
  rwa [Utf8.size_cons, Utf8.size_append, Utf8.size_cons, Utf8.size_nil, Nat.add_zero] at hbehind

/-- Between the braces of a pair stands a body. -/
theorem exists_inner_of_mem_pairs {source : Source} {after : List Char}
    (hrest : source.RestAt pos (body.chars ++ after)) {pair : Pair}
    (h : pair ∈ body.pairs depth pos) : ∃ (inner : Body) (behind : List Char),
      source.RestAt (pair.opening + 1) (inner.chars ++ '}' :: behind) ∧
        pair.closing = pair.opening + 1 + Utf8.size inner.chars := by
  induction body generalizing depth pos after with
  | nil => cases h
  | plain char _ rest ih => exact ih hrest.tail h
  | string text _ rest ih | comment text _ rest ih =>
    rw [chars, List.cons_append, List.append_assoc] at hrest
    exact ih (restAt_behind_hidden hrest) h
  | braces inner rest ihinner ihrest =>
    rw [chars, List.cons_append, List.append_assoc] at hrest
    have hopened : source.RestAt (pos + 1) (inner.chars ++ '}' :: (rest.chars ++ after)) :=
      hrest.tail
    rw [pairs, List.mem_cons, List.mem_append] at h
    rcases h with rfl | h | h
    · exact ⟨inner, _, hopened, rfl⟩
    · exact ihinner hopened h
    · exact ihrest hopened.skip.tail h

end Pairs

end Body

/-! ## The braces that a scan counts -/

/-- A scan from the offset `start` counts an opening brace at the byte offset `pos`. -/
def Opened (source : Source) (start pos : Nat) : Prop :=
  ∃ depth, Scan.Reports .start (SourceInput.ofCursor (source.cursor start)) pos (.braceOpened depth)

/-- A scan from the offset `start` counts a closing brace at the byte offset `pos`. -/
def Closed (source : Source) (start pos : Nat) : Prop :=
  ∃ depth, Scan.Reports .start (SourceInput.ofCursor (source.cursor start)) pos (.braceClosed depth)

/-- A scan from behind an opening brace finds a token that ends in front of the closing brace. -/
def Encloses (source : Source) (valid : TokenFlags) (opening closing : Nat) : Prop :=
  ∃ inner, scanSource source (opening + 1) valid = .ok (some inner) ∧ inner.stop = closing

/-- The blocks inside a token.  The braces counted by the scan that found it are matched by scans
from behind the opening ones, and no two blocks cross. -/
structure Nests (source : Source) (start : Nat) (valid : TokenFlags) (token : Token) : Prop where
  /-- The changes of depth in the log, with the offsets of the braces that they were reported at. -/
  reported : ∃ (result : Scan SourceInput) (marks : List (Nat × Log.Event)),
    scan valid (SourceInput.ofCursor (source.cursor start)) = .ok result ∧
    result.events.toList = marks.map Prod.snd ++ [.blockMatched] ∧
    (marks.map Prod.fst).Pairwise (· < ·) ∧
    ∀ pos event, Scan.Reports .start (SourceInput.ofCursor (source.cursor start)) pos event ↔
      (pos, event) ∈ marks
  within : ∀ pos, Opened source start pos ∨ Closed source start pos →
    token.start ≤ pos ∧ pos < token.stop
  inner : ∀ opening, Opened source start opening → ∃ closing,
    Encloses source valid opening closing ∧ opening < closing ∧ closing < token.stop ∧
      Closed source start closing
  outer : ∀ closing, Closed source start closing → ∃ opening,
    Opened source start opening ∧ Encloses source valid opening closing
  unique : ∀ opening opening' closing, Opened source start opening →
    Opened source start opening' → Encloses source valid opening closing →
      Encloses source valid opening' closing → opening = opening'
  apart : ∀ opening opening' closing closing', Opened source start opening →
    Opened source start opening' → Encloses source valid opening closing →
      Encloses source valid opening' closing' →
        closing < opening' ∨ closing' < opening ∨
          (opening ≤ opening' ∧ closing' ≤ closing) ∨ (opening' ≤ opening ∧ closing ≤ closing')

/-- At the closing brace behind a body nothing is reported. -/
theorem marks_closed (body : Body) (after : List Char) (pos : Nat) :
    State.start.marks pos (body.chars ++ '}' :: after) = State.start.marks pos body.chars := by
  have hpasses : State.start.Passes body.chars .start (body.events 0) := body.passes 0
  rw [hpasses.marks_append, State.marks_cons_of_found rfl, List.append_nil]

section Match

variable {source : Source} {start gap : Nat} {body : Body} {after : List Char}
  (hahead : source.Ahead (min start source.size) gap (body.chars ++ '}' :: after))

include hahead

/-- A scan that finds its token reports at the braces of the pairs of the body, and nowhere else. -/
theorem reports_iff_of_body (pos : Nat) (event : Log.Event) :
    Scan.Reports .start (SourceInput.ofCursor (source.cursor start)) pos event ↔
      (pos, event) ∈ (body.pairs 0 (min start source.size + gap)).flatMap Pair.marks := by
  have hahead' : (SourceInput.ofCursor (source.cursor start)).cursor.source.Ahead
      (SourceInput.ofCursor (source.cursor start)).pos gap (body.chars ++ '}' :: after) := hahead
  have hlength := hahead.restAt.length_lt
  have hdepth : State.start.depth + (body.chars ++ '}' :: after).length < offsetLimit := by
    rwa [show State.start.depth = 0 from rfl, Nat.zero_add]
  have hmarks := marks_closed body after (min start source.size + gap)
  have hpairs := body.mem_marks_iff 0 (min start source.size + gap) (pos, event)
  rw [← State.start, ← hmarks] at hpairs
  exact (Scan.reports_iff_of_ahead hahead' hdepth).trans hpairs

theorem opened_iff_of_body (pos : Nat) : Opened source start pos ↔
    ∃ pair ∈ body.pairs 0 (min start source.size + gap), pos = pair.opening := by
  simp only [Opened, reports_iff_of_body hahead, List.mem_flatMap, Pair.braceOpened_mem_marks_iff]
  constructor
  · rintro ⟨depth, pair, hpair, hpos, -⟩
    exact ⟨pair, hpair, hpos⟩
  · rintro ⟨pair, hpair, hpos⟩
    exact ⟨pair.depth + 1, pair, hpair, hpos, rfl⟩

theorem closed_iff_of_body (pos : Nat) : Closed source start pos ↔
    ∃ pair ∈ body.pairs 0 (min start source.size + gap), pos = pair.closing := by
  simp only [Closed, reports_iff_of_body hahead, List.mem_flatMap, Pair.braceClosed_mem_marks_iff]
  constructor
  · rintro ⟨depth, pair, hpair, hpos, -⟩
    exact ⟨pair, hpair, hpos⟩
  · rintro ⟨pair, hpair, hpos⟩
    exact ⟨pair.depth, pair, hpair, hpos, rfl⟩

/-- From behind the opening brace of a pair a scan stops at the closing brace. -/
theorem encloses_iff_of_mem_pairs {pair : Pair}
    (hpair : pair ∈ body.pairs 0 (min start source.size + gap)) (flags : List Bool)
    (closing : Nat) :
    Encloses source ⟨true :: flags⟩ pair.opening closing ↔ closing = pair.closing := by
  obtain ⟨inner, behind, hinner, hclosing⟩ := Body.exists_inner_of_mem_pairs hahead.restAt hpair
  have hscan := scanSource_of_restAt hinner flags
  rw [walk_closed, if_pos rfl, List.take_left, ← hclosing] at hscan
  constructor
  · rintro ⟨token, htoken, rfl⟩
    rw [hscan] at htoken
    cases htoken
    rfl
  · rintro rfl
    exact ⟨_, hscan, rfl⟩

/-- An opening brace that a scan counted is that of a pair, and the block from behind it ends at the
closing brace of the pair. -/
theorem exists_pair_of_opened {opening : Nat} (h : Opened source start opening)
    (flags : List Bool) : ∃ pair ∈ body.pairs 0 (min start source.size + gap),
      opening = pair.opening ∧
        ∀ closing, Encloses source ⟨true :: flags⟩ opening closing ↔ closing = pair.closing := by
  obtain ⟨pair, hpair, rfl⟩ := (opened_iff_of_body hahead opening).mp h
  exact ⟨pair, hpair, rfl, encloses_iff_of_mem_pairs hahead hpair flags⟩

/-- The log of a scan that finds its token, with the offset of each change of depth. -/
theorem exists_scan_marks_of_body (flags : List Bool) :
    ∃ (result : Scan SourceInput) (marks : List (Nat × Log.Event)),
      scan ⟨true :: flags⟩ (SourceInput.ofCursor (source.cursor start)) = .ok result ∧
      result.events.toList = marks.map Prod.snd ++ [.blockMatched] ∧
      (marks.map Prod.fst).Pairwise (· < ·) ∧
      ∀ pos event, Scan.Reports .start (SourceInput.ofCursor (source.cursor start)) pos event ↔
        (pos, event) ∈ marks := by
  obtain ⟨result, hscan, -, -, hevents⟩ := exists_scan_of_ahead hahead flags
  refine ⟨result, State.start.marks (min start source.size + gap) body.chars, hscan, ?_,
    State.pairwise_marks _ _ _, ?_⟩
  · rw [hevents, Walk.report, Walk.outcome, ← marks_closed body after, State.map_snd_marks,
      if_pos (congrArg Walk.found (walk_closed body after))]
  · intro pos event
    rw [reports_iff_of_body hahead]
    exact (body.mem_marks_iff 0 _ _).symm

end Match

/-- **Blocks nest.**  When a scan finds a token, the braces that it counted lie in the token.  From
behind each opening one a scan finds a token of its own, which ends at a closing one that was
counted.  Each closing brace is met from exactly one opening one, and two such blocks lie apart or
one inside the other. -/
theorem blocks_nest (source : Source) (start : Nat) (valid : TokenFlags) (token : Token)
    (h : scanSource source start valid = .ok (some token)) : Nests source start valid token := by
  obtain ⟨flags, gap, body, after, rfl, hahead, rfl⟩ := exists_body_of_scanSource h
  have hopened := opened_iff_of_body hahead
  have hclosed := closed_iff_of_body hahead
  refine ⟨exists_scan_marks_of_body hahead flags, ?within, ?inner, ?outer, ?unique, ?apart⟩
  case within =>
    intro pos hpos
    rw [hopened, hclosed] at hpos
    rcases hpos with ⟨pair, hpair, rfl⟩ | ⟨pair, hpair, rfl⟩
    all_goals
      have hbounds := Body.bounds_of_mem_pairs hpair
      simp only
      omega
  case inner =>
    intro opening hopening
    obtain ⟨pair, hpair, rfl, hencloses⟩ := exists_pair_of_opened hahead hopening flags
    have hbounds := Body.bounds_of_mem_pairs hpair
    exact ⟨pair.closing, (hencloses _).mpr rfl, hbounds.2.1, hbounds.2.2,
      (hclosed _).mpr ⟨pair, hpair, rfl⟩⟩
  case outer =>
    intro closing hclosing
    obtain ⟨pair, hpair, rfl⟩ := (hclosed closing).mp hclosing
    exact ⟨pair.opening, (hopened _).mpr ⟨pair, hpair, rfl⟩,
      (encloses_iff_of_mem_pairs hahead hpair flags _).mpr rfl⟩
  case unique =>
    intro opening opening' closing hopening hopening' hcloses hcloses'
    obtain ⟨pair, hpair, rfl, hencloses⟩ := exists_pair_of_opened hahead hopening flags
    obtain ⟨pair', hpair', rfl, hencloses'⟩ := exists_pair_of_opened hahead hopening' flags
    rw [hencloses] at hcloses
    rw [hencloses'] at hcloses'
    have hbounds := Body.bounds_of_mem_pairs hpair
    have hbounds' := Body.bounds_of_mem_pairs hpair'
    cases Body.apart_of_mem_pairs hpair hpair' with
    | same heq => rw [heq]
    | before | behind | inside | around => omega
  case apart =>
    intro opening opening' closing closing' hopening hopening' hcloses hcloses'
    obtain ⟨pair, hpair, rfl, hencloses⟩ := exists_pair_of_opened hahead hopening flags
    obtain ⟨pair', hpair', rfl, hencloses'⟩ := exists_pair_of_opened hahead hopening' flags
    rw [hencloses] at hcloses
    rw [hencloses'] at hcloses'
    cases Body.apart_of_mem_pairs hpair hpair' with
    | same heq =>
      rw [heq] at hcloses ⊢
      omega
    | before | behind | inside | around => omega

/-- From inside an accented letter, with braces in a string and in a comment between the others. -/
theorem blocks_nest_behind_accent :
    let source := Source.ofText "é\x7b\"\x7d\"\x7b;\x7b\n\x7d\x7d\x7b\x7d\x7d" (by decide)
    scanSource source 1 ⟨[true]⟩ = .ok (some ⟨.llvmIr, 1, 14⟩) ∧
      Nests source 1 ⟨[true]⟩ ⟨.llvmIr, 1, 14⟩ := by
  intro source
  have hahead : source.Ahead (min 1 source.size) 1
      "\x7b\"\x7d\"\x7b;\x7b\n\x7d\x7d\x7b\x7d\x7d".toList := by
    refine ⟨⟨['é'], by decide, by decide⟩, ?_⟩
    intro k hle hlt
    obtain rfl : k = 1 := by
      have hmin : min 1 source.size = 1 := by decide
      omega
    decide
  have hscan : scanSource source 1 ⟨[true]⟩ = .ok (some ⟨.llvmIr, 1, 14⟩) := by
    rw [scanSource_of_ahead hahead]
    rfl
  exact ⟨hscan, blocks_nest source 1 ⟨[true]⟩ ⟨.llvmIr, 1, 14⟩ hscan⟩

end Block

end AsmBlock
