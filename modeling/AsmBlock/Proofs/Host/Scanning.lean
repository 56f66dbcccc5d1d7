import AsmBlock.Host
import AsmBlock.Proofs.Block.Walk

/-!
# Scanning a host

`Host.ahead` gives the characters that a host yields up to the end of its input, whatever its state,
and `Host.forward` the state behind a number of them.  A scan of a host walks over these characters
(`scan_host`).
-/

namespace AsmBlock

namespace Host

/-- The characters up to the end of the input: first that of the lookahead, which need not be the
current unit, then those of the units behind it. -/
def ahead (host : Host) : List Char :=
  if host.pos < host.endAt then
    charOfUnit host.lookahead ::
      ((host.units.toList.take host.endAt).drop (host.pos + 1)).map charOfUnit
  else []

/-- The host after a number of steps that skip nothing. -/
def forward (host : Host) : Nat → Host
  | 0 => host
  | count + 1 => (host.advance false).forward count

/-! ## Steps -/

section Steps

variable (host : Host) (count : Nat)

/-- What a single step keeps, any number of steps keep. -/
theorem apply_forward {α : Type} (field : Host → α)
    (hfield : ∀ host : Host, field (host.advance false) = field host) :
    field (host.forward count) = field host := by
  induction count generalizing host with
  | zero => rfl
  | succ count ih => rw [forward, ih, hfield]

@[simp] theorem endAt_forward : (host.forward count).endAt = host.endAt :=
  apply_forward host count Host.endAt fun _ => rfl

@[simp] theorem symbol_forward : (host.forward count).symbol = host.symbol :=
  apply_forward host count Host.symbol fun _ => rfl

@[simp] theorem tokenStart_forward : (host.forward count).tokenStart = host.tokenStart :=
  apply_forward host count Host.tokenStart fun _ => rfl

@[simp] theorem endMark_forward : (host.forward count).endMark = host.endMark :=
  apply_forward host count Host.endMark fun _ => rfl

theorem calls_forward : (host.forward count).calls.toList =
    host.calls.toList ++ List.replicate count (.advance false) := by
  induction count generalizing host with
  | zero => simp [forward]
  | succ count ih =>
    have hcalls := ih (host.advance false)
    simpa [forward, advance, List.replicate_succ] using hcalls

variable {host count}

theorem pos_advance (h : host.pos < host.units.size) (skip : Bool) :
    (host.advance skip).pos = host.pos + 1 :=
  if_pos h

theorem pos_forward (h : host.pos + count ≤ host.units.size) :
    (host.forward count).pos = host.pos + count := by
  induction count generalizing host with
  | zero => rfl
  | succ count ih =>
    have hpos : (host.advance false).pos = host.pos + 1 := pos_advance (by omega) false
    have hunits : (host.advance false).units = host.units := rfl
    rw [forward, ih (by rw [hpos, hunits]; omega), hpos]
    omega

/-- No step leads behind the end of the input, wherever the host stands. -/
theorem pos_forward_of_le (h : count ≤ host.endAt - host.pos) :
    (host.forward count).pos = host.pos + count := by
  cases count with
  | zero => rfl
  | succ count =>
    have hle := host.endAt_le
    exact pos_forward (by omega)

end Steps

/-! ## Reading -/

variable {host : Host}

theorem ahead_of_atEnd (h : host.endAt ≤ host.pos) : host.ahead = [] :=
  if_neg (Nat.not_lt.mpr h)

theorem ahead_of_lt (h : host.pos < host.endAt) :
    host.ahead = charOfUnit host.lookahead :: (host.advance false).ahead := by
  have hle := host.endAt_le
  have hpos : (host.advance false).pos = host.pos + 1 := pos_advance (by omega) false
  have hunits : (host.advance false).units = host.units := rfl
  have hend : (host.advance false).endAt = host.endAt := rfl
  have hlook : (host.advance false).lookahead = unitAt host.units (host.pos + 1) := by
    rw [← hpos]
    rfl
  rw [ahead, if_pos h, ahead, hpos, hunits, hend, hlook]
  refine congrArg (charOfUnit host.lookahead :: ·) ?_
  split
  · next hlt =>
    have hsize : host.pos + 1 < host.units.size := by omega
    have hlength : host.pos + 1 < (host.units.toList.take host.endAt).length := by simp; omega
    rw [List.drop_eq_getElem_cons hlength, List.map_cons, List.getElem_take]
    simp [unitAt, hsize]
  · next hge =>
    rw [List.drop_of_length_le (by simp; omega)]
    rfl

theorem length_ahead (host : Host) : host.ahead.length = host.endAt - host.pos := by
  have hle := host.endAt_le
  unfold ahead
  split
  · simp
    omega
  · simp
    omega

/-- A host yields its characters up to the end of its input. -/
theorem reads_ahead (host : Host) :
    Input.Reads host host.ahead (host.forward host.ahead.length) := by
  -- on the number of units left, since a step changes the host
  induction hlength : host.ahead.length generalizing host with
  | zero =>
    rw [List.length_eq_zero_iff] at hlength
    rw [hlength]
    exact .nil host
  | succ length ih =>
    have hpos : host.pos < host.endAt := by
      rw [length_ahead] at hlength
      omega
    rw [ahead_of_lt hpos] at hlength ⊢
    have hrest := ih (host.advance false) (by simpa using hlength)
    exact .cons (by simp [Input.atEnd, atEnd, hpos]) rfl rfl hrest

theorem atEnd_forward (host : Host) : (host.forward host.ahead.length).atEnd = true := by
  have hle := host.endAt_le
  have hlength := host.length_ahead
  by_cases h : host.pos < host.endAt
  · have hpos : (host.forward host.ahead.length).pos = host.pos + host.ahead.length :=
      pos_forward (by omega)
    rw [atEnd, endAt_forward, hpos]
    simp
    omega
  · rw [ahead_of_atEnd (by omega)]
    simpa [atEnd, forward] using h

theorem eq_forward_of_reads {last : Host} {chars : List Char} (h : Input.Reads host chars last) :
    last = host.forward chars.length := by
  induction h with
  | nil => rfl
  | cons _ _ hnext _ ih =>
    cases hnext
    exact ih

end Host

namespace Block

/-- A scan of a host for an accepted token is the walk over what the host yields. -/
theorem scan_host {host : Host} (hlength : host.ahead.length < offsetLimit) (flags : List Bool) :
    scan ⟨true :: flags⟩ host = .ok ((State.start.walk host.ahead).toScan #[]
      (host.forward (State.start.walk host.ahead).length)) := by
  have hdepth : State.start.depth + host.ahead.length < offsetLimit := by
    simpa [State.start] using hlength
  have hend : Input.atEnd (host.forward host.ahead.length) = .ok true :=
    congrArg Except.ok host.atEnd_forward
  obtain ⟨stop, hstop, hrun⟩ := Scan.run_of_reads host.reads_ahead hend hdepth #[]
  have hforward := Host.eq_forward_of_reads hstop
  rw [List.length_take, Nat.min_eq_left (State.length_walk_le _ _)] at hforward
  rw [← hforward]
  exact hrun

end Block

end AsmBlock
