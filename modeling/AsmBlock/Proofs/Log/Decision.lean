import AsmBlock.Log.Filter

/-!
# How a filter decides

A filter decides about an event by the directive with the longest of the targets that the event's
target starts with.  `Filter.Decides` says so of a directive and its place in the list, apart from
how the directive is looked for, and the two agree (`Filter.decisive?_eq_some_iff`).
-/

namespace AsmBlock

namespace Log

namespace Filter

/-- The directive is about the target.  Of the others about it those before have no longer targets,
and those behind have shorter ones. -/
structure Decides (filter : Filter) (target : String) (directive : Directive) : Prop where
  covers : directive.covers target = true
  longest : ∃ earlier later, filter.directives = earlier ++ directive :: later ∧
    (∀ other ∈ earlier, other.covers target = true →
      other.target.length ≤ directive.target.length) ∧
    ∀ other ∈ later, other.covers target = true → other.target.length < directive.target.length

/-! ## Looking for the directive -/

section Prefer

variable {directives : List Directive} {directive : Directive}

theorem mem_of_foldl_prefer {start : Option Directive}
    (h : directives.foldl prefer start = some directive) :
    directive ∈ directives ∨ start = some directive := by
  induction directives generalizing start with
  | nil => exact .inr h
  | cons first directives ih =>
    rcases ih h with hmem | hfirst
    · exact .inl (List.mem_cons_of_mem first hmem)
    · unfold prefer at hfirst
      split at hfirst
      · cases hfirst
        exact .inl List.mem_cons_self
      · split at hfirst
        · cases hfirst
          exact .inl List.mem_cons_self
        · exact .inr hfirst

theorem foldl_prefer_of_lt
    (h : ∀ other ∈ directives, other.target.length < directive.target.length) :
    directives.foldl prefer (some directive) = some directive := by
  induction directives with
  | nil => rfl
  | cons first directives ih =>
    obtain ⟨hfirst, hrest⟩ := List.forall_mem_cons.mp h
    have hkept : prefer (some directive) first = some directive := if_neg (Nat.not_le.mpr hfirst)
    rw [List.foldl_cons, hkept]
    exact ih hrest

end Prefer

variable {filter : Filter} {target : String} {directive : Directive}

theorem Decides.decisive? (h : filter.Decides target directive) :
    filter.decisive? target = some directive := by
  obtain ⟨earlier, later, hlist, hearlier, hlater⟩ := h.longest
  have hhead : (directive :: later).filter (fun other => other.covers target) =
      directive :: later.filter fun other => other.covers target :=
    List.filter_cons_of_pos h.covers
  rw [Filter.decisive?, hlist, List.filter_append, hhead, List.foldl_append, List.foldl_cons]
  have hchosen : prefer ((earlier.filter fun other => other.covers target).foldl prefer none)
      directive = some directive := by
    cases hbest : (earlier.filter fun other => other.covers target).foldl prefer none with
    | none => rfl
    | some best =>
      rcases mem_of_foldl_prefer hbest with hmem | hnone
      · obtain ⟨hmem, hcovers⟩ := List.mem_filter.mp hmem
        exact if_pos (hearlier best hmem hcovers)
      · cases hnone
  rw [hchosen]
  apply foldl_prefer_of_lt
  intro other hmem
  obtain ⟨hmem, hcovers⟩ := List.mem_filter.mp hmem
  exact hlater other hmem hcovers

/-- If a directive is about the target, one of those in the list decides. -/
theorem exists_decides (hmem : directive ∈ filter.directives)
    (hcovers : directive.covers target = true) : ∃ best, filter.Decides target best := by
  rcases filter with ⟨directives⟩
  induction directives generalizing directive with
  | nil => cases hmem
  | cons first directives ih =>
    by_cases hrest : ∃ other ∈ directives, other.covers target = true
    · obtain ⟨other, hother, hcovers'⟩ := hrest
      obtain ⟨best, hbest⟩ := ih hcovers' hother
      obtain ⟨earlier, later, hlist, hearlier, hlater⟩ := hbest.longest
      have hlongest : ∀ other ∈ directives, other.covers target = true →
          other.target.length ≤ best.target.length := by
        simp only at hlist
        intro other hmem hcovers
        rw [hlist] at hmem
        rcases List.mem_append.mp hmem with hmem | hmem
        · exact hearlier other hmem hcovers
        · rcases List.mem_cons.mp hmem with rfl | hmem
          · exact Nat.le_refl _
          · exact Nat.le_of_lt (hlater other hmem hcovers)
      -- the first directive decides only if its target is longer than all behind it
      by_cases hfirst : first.covers target = true ∧ best.target.length < first.target.length
      · refine ⟨first, hfirst.1, [], directives, rfl, nofun, ?_⟩
        intro other hmem hcovers
        exact Nat.lt_of_le_of_lt (hlongest other hmem hcovers) hfirst.2
      · refine ⟨best, hbest.covers, first :: earlier, later, congrArg (first :: ·) hlist, ?_,
          hlater⟩
        refine List.forall_mem_cons.mpr ⟨?_, hearlier⟩
        intro hcovers
        exact Nat.le_of_not_lt fun hlt => hfirst ⟨hcovers, hlt⟩
    · have hfirst : first.covers target = true := by
        rcases List.mem_cons.mp hmem with rfl | hmem
        · exact hcovers
        · exact absurd ⟨directive, hmem, hcovers⟩ hrest
      refine ⟨first, hfirst, [], directives, rfl, nofun, ?_⟩
      intro other hmem hcovers
      exact absurd ⟨other, hmem, hcovers⟩ hrest

/-- **The longest target decides**, and among equal ones the last. -/
theorem decisive?_eq_some_iff :
    filter.decisive? target = some directive ↔ filter.Decides target directive := by
  refine ⟨?_, Decides.decisive?⟩
  intro h
  rcases mem_of_foldl_prefer h with hmem | hnone
  · obtain ⟨hmem, hcovers⟩ := List.mem_filter.mp hmem
    obtain ⟨best, hbest⟩ := exists_decides hmem hcovers
    rw [hbest.decisive?] at h
    cases h
    exact hbest
  · cases hnone

theorem admits_iff {level : Level} : filter.admits target level = true ↔
    ∃ directive, filter.Decides target directive ∧ directive.threshold.allows level = true := by
  unfold admits
  cases hdecisive : filter.decisive? target with
  | none =>
    refine ⟨nofun, ?_⟩
    rintro ⟨directive, hdecides, -⟩
    rw [hdecides.decisive?] at hdecisive
    cases hdecisive
  | some directive =>
    refine ⟨fun h => ⟨directive, decisive?_eq_some_iff.mp hdecisive, h⟩, ?_⟩
    rintro ⟨other, hdecides, hallows⟩
    rw [hdecides.decisive?] at hdecisive
    cases hdecisive
    exact hallows

end Filter

end Log

end AsmBlock
