import AsmBlock.Proofs.Block.Calls
import AsmBlock.Proofs.SourceInput.Order
import AsmBlock.Proofs.SourceInput.Safety

/-!
# Scanning again

A scan stops at the end of its input or in front of the closing brace, and a scan that starts there
stops at once.  What the first scan records of a token does not hide that from the second
(`Input.Transparent`).  So a second scan finds what the first one found, steps over nothing and
leaves all as it is (`scan_again_settles`).
-/

namespace AsmBlock

open Input

/-- What is recorded of a token changes nothing that is read of the input. -/
structure Input.Transparent (σ : Type) [Input σ] : Prop where
  atEnd : ∀ state : σ, atEnd (markEnd (recognize .llvmIr state)) = atEnd state
  lookahead : ∀ state : σ, lookahead (markEnd (recognize .llvmIr state)) = lookahead state

theorem SourceInput.transparent : Transparent SourceInput := ⟨fun _ => rfl, fun _ => rfl⟩

theorem Host.transparent : Transparent Host := ⟨fun _ => rfl, fun _ => rfl⟩

namespace Block

variable {σ : Type} [Input σ]

/-! ## Where a scan stops -/

/-- A place where a scan that starts there stops, and whether it has found its token. -/
inductive StopsAt (input : σ) : Bool → Prop where
  | ended (hend : atEnd input = .ok true) : StopsAt input false
  | closed {char : Char} (hmore : atEnd input = .ok false) (hchar : lookahead input = .ok char)
      (hclass : CharClass.ofChar char = .closeBrace) : StopsAt input true

theorem StopsAt.recorded (h : Transparent σ) {stop : σ} (hstop : StopsAt stop true) :
    StopsAt (markEnd (recognize .llvmIr stop)) true := by
  cases hstop with
  | closed hmore hchar hclass =>
    exact .closed ((h.atEnd stop).trans hmore) ((h.lookahead stop).trans hchar) hclass

theorem Scan.stopsAt_of_run (h : Transparent σ) {state : State} {events : Array Log.Event}
    {input : σ} {result : Scan σ} (hrun : run state events input = .ok result) :
    StopsAt result.input result.found := by
  fun_induction run state events input with
  | case1 | case3 | case4 | case6 => cases hrun
  | case2 state events input hend =>
    cases hrun
    exact .ended hend
  | case5 state events input hmore char hchar hstep =>
    cases hrun
    obtain ⟨-, hclass⟩ := State.step_eq_ok_found_iff.mp hstep
    exact (StopsAt.closed hmore hchar hclass).recorded h
  | case7 _ _ _ _ _ _ _ _ _ _ _ _ ih => exact ih hrun

theorem stopsAt_of_scan (h : Transparent σ) {valid : TokenFlags}
    (hvalid : valid.contains .llvmIr = true) {input : σ} {result : Scan σ}
    (hscan : scan valid input = .ok result) : StopsAt result.input result.found := by
  rw [scan, if_pos hvalid] at hscan
  exact Scan.stopsAt_of_run h hscan

theorem contains_of_found {valid : TokenFlags} {input : σ} {result : Scan σ}
    (hscan : scan valid input = .ok result) (hfound : result.found = true) :
    valid.contains .llvmIr = true := by
  cases hvalid : valid.contains .llvmIr with
  | true => rfl
  | false =>
    rw [scan_of_not_contains hvalid] at hscan
    cases hscan
    cases hfound

/-! ## The second scan -/

/-- A second scan with the same flags finds what the first one found.  It steps over nothing and
traces nothing. -/
structure Settled (valid : TokenFlags) (first second : Scan σ) : Prop where
  found : second.found = first.found
  disciplined : Disciplined valid first.input second 0
  untraced : ∀ event ∈ second.events, event.level ≠ .trace

theorem disciplined_of_not_contains {valid : TokenFlags} (h : valid.contains .llvmIr = false)
    (input : σ) : Disciplined valid input ⟨false, input, #[]⟩ 0 where
  scanned := scan_of_not_contains h input
  recorded := ⟨#[], rfl, scan_of_not_contains h (Recorded.start input)⟩
  performed := ⟨[], rfl⟩
  more := nofun

section Accepted

variable {valid : TokenFlags} (hvalid : valid.contains .llvmIr = true) {input : σ}

include hvalid

theorem disciplined_of_atEnd (h : atEnd input = .ok true) :
    Disciplined valid input ⟨false, input, #[.inputEnded 0]⟩ 0 where
  scanned := by
    rw [scan, if_pos hvalid, Scan.run_of_atEnd h]
    rfl
  recorded := by
    refine ⟨#[], rfl, ?_⟩
    have hend : atEnd (Recorded.start input) = .ok true := h
    rw [scan, if_pos hvalid, Scan.run_of_atEnd hend]
    rfl
  performed := ⟨[], rfl⟩
  more := nofun

theorem disciplined_of_closeBrace {char : Char} (hmore : atEnd input = .ok false)
    (hchar : lookahead input = .ok char) (hclass : CharClass.ofChar char = .closeBrace) :
    Disciplined valid input ⟨true, markEnd (recognize .llvmIr input), #[.blockMatched]⟩ 0 := by
  have hstep : State.start.step (.ofChar char) = .ok .found :=
    State.step_eq_ok_found_iff.mpr ⟨rfl, hclass⟩
  refine ⟨?_, ⟨#[.recognize .llvmIr, .markEnd], rfl, ?_⟩, ⟨[.done, .done], rfl⟩, nofun⟩
  · rw [scan, if_pos hvalid, Scan.run_of_found hmore hchar hstep]
    rfl
  · have hmore' : atEnd (Recorded.start input) = .ok false := hmore
    have hchar' : lookahead (Recorded.start input) = .ok char := hchar
    rw [scan, if_pos hvalid, Scan.run_of_found hmore' hchar' hstep]
    rfl

end Accepted

/-- Behind any scan there is a second one, which records its token once more if it is found. -/
theorem exists_settled (h : Transparent σ) {valid : TokenFlags} {input : σ} {first : Scan σ}
    (hscan : scan valid input = .ok first) :
    ∃ second, Settled valid first second ∧ second.input =
      if first.found then markEnd (recognize .llvmIr first.input) else first.input := by
  cases hvalid : valid.contains .llvmIr with
  | false =>
    rw [scan_of_not_contains hvalid] at hscan
    cases hscan
    exact ⟨_, ⟨rfl, disciplined_of_not_contains hvalid input, nofun⟩, rfl⟩
  | true =>
    have hstop := stopsAt_of_scan h hvalid hscan
    rcases first with ⟨found, stop, events⟩
    cases hstop with
    | ended hend =>
      refine ⟨⟨false, stop, #[.inputEnded 0]⟩,
        ⟨rfl, disciplined_of_atEnd hvalid hend, ?_⟩, rfl⟩
      simp [Log.Event.level]
    | closed hmore hchar hclass =>
      refine ⟨⟨true, markEnd (recognize .llvmIr stop), #[.blockMatched]⟩,
        ⟨rfl, disciplined_of_closeBrace hvalid hmore hchar hclass, ?_⟩, rfl⟩
      simp [Log.Event.level]

/-! ## Sources and hosts -/

open SourceInput

/-- Recording a token a second time at the same position changes nothing. -/
theorem exists_settled_source {valid : TokenFlags} {input : SourceInput} {first : Scan SourceInput}
    (hscan : scan valid input = .ok first) :
    ∃ second, Settled valid first second ∧ second.input = first.input := by
  obtain ⟨second, hsettled, hinput⟩ := exists_settled SourceInput.transparent hscan
  refine ⟨second, hsettled, hinput.trans ?_⟩
  cases hfound : first.found with
  | false => rfl
  | true =>
    obtain ⟨stop, hstop⟩ := exists_stop_of_scan hscan hfound
    rw [if_pos rfl, hstop]
    rfl

/-- A host that marks the end again adds that to its calls. -/
def markedAgain (host : Host) : Host :=
  { host with calls := host.calls.push (.markEnd Token.Kind.llvmIr.symbol) }

theorem exists_settled_host {valid : TokenFlags} {host : Host} {first : Scan Host}
    (hscan : scan valid host = .ok first) :
    ∃ second, Settled valid first second ∧
      second.input = if first.found then markedAgain first.input else first.input := by
  obtain ⟨second, hsettled, hinput⟩ := exists_settled Host.transparent hscan
  refine ⟨second, hsettled, hinput.trans ?_⟩
  cases hfound : first.found with
  | false => rfl
  | true =>
    obtain ⟨stop, hstop⟩ := exists_stop_of_scan hscan hfound
    rw [if_pos rfl, if_pos rfl, hstop]
    rfl

/-- A scan that starts where another found its closing brace finds it at once. -/
theorem exists_scan_restart {source : Source} {valid : TokenFlags} {input : SourceInput}
    (hordered : Ordered source input) {first : Scan SourceInput}
    (hscan : scan valid input = .ok first) (hfound : first.found = true) :
    ∃ token again, first.input.token? = some token ∧
      scan valid first.input.restart = .ok again ∧ again.found = true ∧
      again.input.token? = some ⟨.llvmIr, token.stop, token.stop⟩ := by
  have hvalid := contains_of_found hscan hfound
  have hwithin : input.Within := by
    rw [Within, hordered.source_eq]
    exact hordered.pos_le
  obtain ⟨result, hresult, hreaches⟩ := exists_scan_reaches .refl hwithin valid
  rw [hscan] at hresult
  cases hresult
  have hstart := (hordered.of_reaches hreaches).tokenStart_le
  have hstop := stopsAt_of_scan SourceInput.transparent hvalid hscan
  rw [hfound] at hstop
  obtain ⟨stop, hrecorded⟩ := exists_stop_of_scan hscan hfound
  rw [hrecorded] at hstart hstop ⊢
  cases hstop with
  | closed hmore hchar hclass =>
    have hagain : Disciplined valid stop.restart _ 0 :=
      disciplined_of_closeBrace hvalid hmore hchar hclass
    exact ⟨_, _, token?_markEnd_recognize hstart, hagain.scanned, rfl,
      token?_markEnd_recognize (Nat.le_refl _)⟩

/-- **A scan settles its input.**  Whatever has been done to a source input, and in whatever state a
host is that has fewer units left than there are offsets, a second scan with the flags of the first
finds what the first found, without a step and without a trace of depths.  It leaves the position,
the token's start, the end mark and the symbol as they are, and a host only adds to its calls that
the end was marked.  A scan that starts anew where a source was matched yields an empty token with
the same end. -/
theorem scan_again_settles :
    (∀ (source : Source) (start : Nat) (commands : List SourceInput.Command) (valid : TokenFlags),
      let input := ((Session.start (ofCursor (source.cursor start))).after commands).input
      ∃ first second, scan valid input = .ok first ∧ Settled valid first second ∧
        second.input = first.input ∧
        (first.found = true → ∃ token again, first.input.token? = some token ∧
          scan valid first.input.restart = .ok again ∧ again.found = true ∧
          again.input.token? = some ⟨.llvmIr, token.stop, token.stop⟩)) ∧
    ∀ host : Host, host.endAt - host.pos < offsetLimit → ∀ valid : TokenFlags,
      ∃ first second, scan valid host = .ok first ∧ Settled valid first second ∧
        second.input = if first.found then markedAgain first.input else first.input := by
  refine ⟨?_, ?_⟩
  · intro source start commands valid input
    have hfirst := within_ofCursor source start
    have hreaches : Reaches (ofCursor (source.cursor start)) input :=
      (Session.from_after (Session.from_start _) hfirst commands).input
    have hordered := (Ordered.ofCursor source start).of_reaches hreaches
    obtain ⟨first, -, hscan, -⟩ := exists_scan (hreaches.within hfirst) valid
    obtain ⟨second, hsettled, hsame⟩ := exists_settled_source hscan
    exact ⟨first, second, hscan, hsettled, hsame, exists_scan_restart hordered hscan⟩
  · intro host hlimit valid
    obtain ⟨first, hscan⟩ := exists_scan_host hlimit valid
    obtain ⟨second, hsettled, hsame⟩ := exists_settled_host hscan
    exact ⟨first, second, hscan, hsettled, hsame⟩

/-- A host in the middle of its units, with a closing brace put into the lookahead by hand and a
symbol of no token in its slot. -/
theorem scan_again_settles_on_set_lookahead :
    let host : Host := { Host.start (Host.unitsOfText "ab\x7b") 1 none with
      lookahead := 125, symbol := 7 }
    host.endAt - host.pos < offsetLimit ∧ ∃ first second,
      scan ⟨[true, false]⟩ host = .ok first ∧ Settled ⟨[true, false]⟩ first second ∧
        second.input = if first.found then markedAgain first.input else first.input := by
  intro host
  have hlimit : host.endAt - host.pos < offsetLimit := by decide
  exact ⟨hlimit, scan_again_settles.2 host hlimit ⟨[true, false]⟩⟩

end Block

end AsmBlock
