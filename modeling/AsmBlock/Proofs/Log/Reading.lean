import AsmBlock.Proofs.Log.Decision

/-!
# Writing and reading a filter

A list of directives whose targets are paths is written one after the other, and what filters admit
may be known from how they are written: the longest target decides (`LongestTargetDecides`).  That
is so of filters of directives, which are read back as they are written
(`Filter.longestTargetDecides_admission`).
-/

namespace AsmBlock

namespace Log

theorem pieces_eq (text : String) (separator : Char) :
    pieces text separator = (text.toList.splitOn separator).map String.ofList :=
  String.toList_split_char

theorem pieces_of_not_mem {text : String} {separator : Char} (h : separator ∉ text.toList) :
    pieces text separator = [text] := by
  rw [pieces_eq, List.splitOn_eq_singleton h, List.map_singleton, String.ofList_toList]

namespace Threshold

/-- The word for a threshold, in lower case. -/
def word : Threshold → String
  | .off => "off"
  | .upTo .error => "error"
  | .upTo .warn => "warn"
  | .upTo .info => "info"
  | .upTo .debug => "debug"
  | .upTo .trace => "trace"

theorem toLower_word (threshold : Threshold) : threshold.word.toLower = threshold.word := by
  have hmap : threshold.word.toLower.toList = threshold.word.toList.map Char.toLower :=
    String.toList_map
  apply String.toList_inj.mp
  rw [hmap]
  rcases threshold with _ | level
  · decide
  · cases level <;> decide

theorem ofWord?_word (threshold : Threshold) : ofWord? threshold.word = some threshold := by
  rw [ofWord?, toLower_word]
  rcases threshold with _ | level
  · rfl
  · cases level <;> rfl

/-- A word for a threshold holds no character that divides filters. -/
theorem not_mem_word (threshold : Threshold) :
    ',' ∉ threshold.word.toList ∧ '=' ∉ threshold.word.toList := by
  rcases threshold with _ | level
  · decide
  · cases level <;> decide

theorem isEmpty_word (threshold : Threshold) : threshold.word.isEmpty = false := by
  rcases threshold with _ | level
  · rfl
  · cases level <;> rfl

end Threshold

namespace Directive

/-- A directive as it is written: its target and its level, or its level alone if it is about every
target. -/
def written (directive : Directive) : String :=
  if directive.target.isEmpty then directive.threshold.word
  else directive.target ++ "=" ++ directive.threshold.word

/-- Whether a character may stand in a path such as `outer::inner`. -/
def isPathChar (char : Char) : Bool := char.isAlphanum || char == '_' || char == ':'

/-- The target is a path. -/
def Writable (directive : Directive) : Prop := directive.target.toList.all isPathChar = true

instance (directive : Directive) : Decidable directive.Writable :=
  inferInstanceAs (Decidable (_ = _))

variable {directive : Directive}

theorem isEmpty_written (directive : Directive) : directive.written.isEmpty = false := by
  unfold written
  split
  · exact directive.threshold.isEmpty_word
  · simp [String.isEmpty_eq_false_iff]

/-- A path holds no character that divides filters. -/
theorem Writable.not_mem_target (h : directive.Writable) :
    ',' ∉ directive.target.toList ∧ '=' ∉ directive.target.toList := by
  have hpath := List.all_eq_true.mp h
  constructor
  · intro hmem
    exact absurd (hpath _ hmem) (by decide)
  · intro hmem
    exact absurd (hpath _ hmem) (by decide)

theorem Writable.not_mem_written (h : directive.Writable) : ',' ∉ directive.written.toList := by
  have hword := directive.threshold.not_mem_word.1
  unfold written
  split
  · exact hword
  · simp [h.not_mem_target.1, hword]

/-- A directive is read back from how it is written. -/
theorem Writable.parse?_written (h : directive.Writable) :
    parse? directive.written = some directive := by
  have hword := directive.threshold.ofWord?_word
  have hequals := directive.threshold.not_mem_word.2
  unfold written
  split
  · next hempty =>
    have htarget : directive.target = "" := String.isEmpty_iff.mp hempty
    rw [parse?, pieces_of_not_mem hequals]
    simp only [hword]
    rw [← htarget]
  · next hempty =>
    have hpieces : pieces (directive.target ++ "=" ++ directive.threshold.word) '=' =
        [directive.target, directive.threshold.word] := by
      have hchars : (directive.target ++ "=" ++ directive.threshold.word).toList =
          directive.target.toList ++ '=' :: directive.threshold.word.toList := by simp
      rw [pieces_eq, hchars, List.splitOn_append_cons_self_of_not_mem h.not_mem_target.2,
        List.splitOn_eq_singleton hequals]
      simp
    rw [parse?, hpieces]
    simp [hempty, hword]

end Directive

namespace Filter

/-- A list of directives as it is written. -/
def written (directives : List Directive) : String :=
  ",".intercalate (directives.map Directive.written)

theorem filterMap_parse?_written {directives : List Directive}
    (h : ∀ directive ∈ directives, directive.Writable) :
    (directives.map Directive.written).filterMap Directive.parse? = directives := by
  induction directives with
  | nil => rfl
  | cons first directives ih =>
    obtain ⟨hfirst, hrest⟩ := List.forall_mem_cons.mp h
    rw [List.map_cons, List.filterMap_cons_some hfirst.parse?_written, ih hrest]

/-- **A filter is read back** from how its directives are written. -/
theorem parse_written {directives : List Directive} (hne : directives ≠ [])
    (h : ∀ directive ∈ directives, directive.Writable) :
    parse (written directives) = ⟨directives⟩ := by
  have hcomma : ∀ text ∈ directives.map Directive.written, ',' ∉ text.toList := by
    rintro _ htext
    obtain ⟨directive, hmem, rfl⟩ := List.mem_map.mp htext
    exact (h directive hmem).not_mem_written
  have hpieces : pieces (written directives) ',' = directives.map Directive.written := by
    have hsplit := String.toList_split_intercalate hcomma
    rwa [if_neg (by simpa using hne)] at hsplit
  have hkept : (directives.map Directive.written).filter (fun piece => !piece.isEmpty) =
      directives.map Directive.written := by
    rw [List.filter_eq_self]
    rintro _ htext
    obtain ⟨directive, -, rfl⟩ := List.mem_map.mp htext
    rw [directive.isEmpty_written]
    rfl
  rw [parse, hpieces, hkept, filterMap_parse?_written h]
  cases directives with
  | nil => exact absurd rfl hne
  | cons first rest => rfl

end Filter

/-- An event is decided by the directive with the longest of the targets that the event's target
starts with, and by the last of several with that target.  This is known of filters that are written
of directives, and of other texts nothing is. -/
structure LongestTargetDecides (admits : Admission) : Prop where
  admits_iff : ∀ directives : List Directive, directives ≠ [] →
    (∀ directive ∈ directives, directive.Writable) → ∀ target level,
      (admits (Filter.written directives) target level = true ↔
        ∃ directive, (Filter.mk directives).Decides target directive ∧
          directive.threshold.allows level = true)

theorem Filter.longestTargetDecides_admission : LongestTargetDecides Filter.admission where
  admits_iff := by
    intro directives hne hwritable target level
    rw [admission, parse_written hne hwritable]
    exact admits_iff

/-- The filter `trace` admits everything. -/
theorem LongestTargetDecides.admits_trace {admits : Admission} (h : LongestTargetDecides admits)
    (target : String) (level : Level) : admits "trace" target level = true := by
  let every : Directive := ⟨"", .upTo .trace⟩
  have hwritten : Filter.written [every] = "trace" := by decide
  have hwritable : ∀ directive ∈ [every], directive.Writable := by decide
  have hdecides : (Filter.mk [every]).Decides target every :=
    ⟨rfl, [], [], rfl, List.forall_mem_nil _, List.forall_mem_nil _⟩
  rw [← hwritten, h.admits_iff [every] (List.cons_ne_nil _ _) hwritable]
  refine ⟨every, hdecides, ?_⟩
  cases level <;> rfl

end Log

end AsmBlock
