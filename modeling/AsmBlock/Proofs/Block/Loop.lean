import AsmBlock.Proofs.Block.Walk

/-!
# Inside a scan

`Scan.Leads` says which states and inputs the loop of a scan comes by.  What holds of all of them
holds throughout the scan, and not only of what it leaves behind (`Scan.Throughout`).  The depth is
such a thing: it is never greater than the number of characters read, so that it fits an offset, and
it is only lowered from above zero (`Scan.Leads.steady`).
-/

namespace AsmBlock

namespace Block

open Input

variable {σ : Type} [Input σ]

namespace Scan

/-- The loop of a scan leads over `count` characters from one state and input to others. -/
inductive Leads : State → σ → Nat → State → σ → Prop where
  | refl (state : State) (input : σ) : Leads state input 0 state input
  | next {state after last : State} {input advanced stop : σ} {char : Char}
      {event? : Option Log.Event} {count : Nat} (hend : atEnd input = .ok false)
      (hchar : lookahead input = .ok char)
      (hstep : state.step (.ofChar char) = .ok (.next after event?))
      (hadvance : advance false input = .ok advanced)
      (hrest : Leads after advanced count last stop) : Leads state input (count + 1) last stop

namespace Leads

variable {state last : State} {input stop final : σ} {count : Nat} {chars : List Char}

theorem depth_le (h : Leads state input count last stop) : last.depth ≤ state.depth + count := by
  induction h with
  | refl => exact Nat.le_refl _
  | next _ _ hstep _ _ ih =>
    have hafter := State.depth_le_of_move (State.move_of_step hstep)
    omega

/-- What an input yields is read in part on the way, and the rest is left. -/
theorem exists_reads (h : Leads state input count last stop) (hreads : Reads input chars final)
    (hfinal : atEnd final = .ok true) :
    ∃ rest, Reads stop rest final ∧ rest.length + count = chars.length := by
  induction h generalizing chars with
  | refl => exact ⟨chars, hreads, rfl⟩
  | next hend hchar _ hadvance _ ih =>
    cases hreads with
    | nil =>
      rw [hend] at hfinal
      cases hfinal
    | cons _ _ hnext hrest =>
      rw [hadvance] at hnext
      cases hnext
      obtain ⟨rest, hrest, hlength⟩ := ih hrest
      refine ⟨rest, hrest, ?_⟩
      rw [List.length_cons, ← hlength]
      omega

end Leads

/-- The loop leads to where the scan stops. -/
theorem exists_leads_of_run {state : State} {events : Array Log.Event} {input : σ}
    {result : Scan σ} (h : run state events input = .ok result) :
    ∃ count last stop, Leads state input count last stop ∧
      result.input = if result.found then markEnd (recognize .llvmIr stop) else stop := by
  fun_induction run state events input with
  | case1 | case3 | case4 | case6 => cases h
  | case2 state events input =>
    cases h
    exact ⟨0, state, input, .refl state input, rfl⟩
  | case5 state events input =>
    cases h
    exact ⟨0, state, input, .refl state input, rfl⟩
  | case7 state events input hend char hchar after event? hstep advanced hadvance _ ih =>
    obtain ⟨count, last, stop, hleads, hstop⟩ := ih h
    exact ⟨count + 1, last, stop, .next hend hchar hstep hadvance hleads, hstop⟩

/-- A scan ends, and something holds of every number of characters read, state and input that its
loop comes by, from the first to those at which it stops. -/
def Throughout (valid : TokenFlags) (input : σ) (holds : Nat → State → σ → Prop) : Prop :=
  ∃ result, scan valid input = .ok result ∧ (valid.contains .llvmIr = true →
    (∃ count state stop, Leads .start input count state stop ∧
      result.input = if result.found then markEnd (recognize .llvmIr stop) else stop) ∧
    ∀ count state stop, Leads .start input count state stop → holds count state stop)

theorem throughout_of_leads {valid : TokenFlags} {input : σ} {holds : Nat → State → σ → Prop}
    {result : Scan σ} (hscan : scan valid input = .ok result)
    (h : ∀ count state stop, Leads .start input count state stop → holds count state stop) :
    Throughout valid input holds := by
  refine ⟨result, hscan, ?_⟩
  intro hvalid
  rw [scan, if_pos hvalid] at hscan
  exact ⟨exists_leads_of_run hscan, h⟩

/-! ## The depth -/

/-- A depth, what is reported at a step, and the depth behind it.  The depth is lowered only where
it is above zero. -/
inductive Counts : Nat → Option Log.Event → Nat → Prop where
  | same (depth : Nat) : Counts depth none depth
  | opened (depth : Nat) : Counts depth (some (.braceOpened (depth + 1))) (depth + 1)
  | closed (depth : Nat) : Counts (depth + 1) (some (.braceClosed depth)) depth

theorem counts_of_move {state after : State} {char : CharClass} {event? : Option Log.Event}
    (h : state.move char = .next after event?) : Counts state.depth event? after.depth := by
  rcases state with ⟨context, depth⟩
  cases context <;> cases char <;> try (cases h; exact .same depth)
  · cases h
    exact .opened depth
  · cases depth with
    | zero => cases h
    | succ depth =>
      cases h
      exact .closed depth

/-- Behind `count` characters of a scan the depth is no greater than their number.  If the input has
not ended, the next character can be read and stepped over, and the depth keeps to its bounds. -/
structure Steady (count : Nat) (state : State) (input : σ) : Prop where
  depth_le : state.depth ≤ count
  count_lt : count < offsetLimit
  next : atEnd input = .ok true ∨ ∃ char step advanced, atEnd input = .ok false ∧
    lookahead input = .ok char ∧ state.step (.ofChar char) = .ok step ∧
    advance false input = .ok advanced ∧ count + 1 < offsetLimit ∧
    ∀ after event?, step = .next after event? →
      Counts state.depth event? after.depth ∧ after.depth ≤ count + 1

/-- The depth is steady throughout the scan of an input that yields fewer characters than there are
offsets. -/
theorem Leads.steady {input stop final : σ} {state : State} {count : Nat} {chars : List Char}
    (h : Leads .start input count state stop) (hreads : Reads input chars final)
    (hfinal : atEnd final = .ok true) (hlength : chars.length < offsetLimit) :
    Steady count state stop := by
  have hdepth := h.depth_le
  rw [show State.start.depth = 0 from rfl, Nat.zero_add] at hdepth
  obtain ⟨rest, hrest, hsum⟩ := h.exists_reads hreads hfinal
  refine ⟨hdepth, by omega, ?_⟩
  cases hrest with
  | nil => exact .inl hfinal
  | @cons _ advanced _ char rest hend hchar hnext _ =>
    rw [List.length_cons] at hsum
    have hlimit : state.depth + 1 < offsetLimit := by omega
    refine .inr ⟨char, _, advanced, hend, hchar, State.step_eq_ok_move hlimit _, hnext, by omega,
      ?_⟩
    intro after event? hmove
    have hafter := State.depth_le_of_move hmove
    exact ⟨counts_of_move hmove, by omega⟩

end Scan

end Block

end AsmBlock
