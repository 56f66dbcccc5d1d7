import AsmBlock.Proofs.Plugin.Agreement
import AsmBlock.Proofs.Plugin.Scanning

/-!
# What a scan sees of a host

A scan tells the units of a host apart by their classes only, and sees none behind the end of the
input.  Two hosts whose units up to there have the same classes (`Alike`) are therefore scanned
alike, whatever else they hold: the scans step over as many units, make the same calls, mark the
same end and report the same events (`scan_sees_classes`).
-/

namespace AsmBlock

namespace Host

open Block

/-! ## The classes of units -/

/-- The class of a unit.  A unit that is no character is of no other class than most characters. -/
def classOf (unit : Int32) : CharClass :=
  if unit = 0x22 then .quote
  else if unit = 0x3B then .semicolon
  else if unit = 0x0A then .newline
  else if unit = 0x7B then .openBrace
  else if unit = 0x7D then .closeBrace
  else .other

/-- A character other than NUL is read off no unit but its own. -/
theorem eq_of_charOfUnit {unit : Int32} {char : Char} (hchar : char.toNat ≠ 0)
    (h : charOfUnit unit = char) : unit = Int32.ofNat char.toNat := by
  by_cases hvalid : unit.toNatClampNeg.isValidChar
  · rw [charOfUnit, Char.ofNat, dif_pos hvalid] at h
    have hnat : unit.toNatClampNeg = char.toNat := congrArg Char.toNat h
    have hunit := unit.toNat_toInt
    have hlt := unit.toInt_lt
    apply Int32.toInt_inj.mp
    rw [Int32.toInt_ofNat_of_lt (by omega)]
    omega
  · rw [charOfUnit, Char.ofNat, dif_neg hvalid] at h
    exact absurd (congrArg Char.toNat h).symm hchar

/-- A unit is of the class of the character as which it reads. -/
theorem ofChar_charOfUnit (unit : Int32) : CharClass.ofChar (charOfUnit unit) = classOf unit := by
  have hne : ∀ char, charOfUnit unit ≠ char → unit ≠ Int32.ofNat char.toNat := by
    rintro char hchar rfl
    exact hchar (charOfUnit_ofNat char)
  unfold CharClass.ofChar
  split
  · next h => rw [eq_of_charOfUnit (by decide) h]; rfl
  · next h => rw [eq_of_charOfUnit (by decide) h]; rfl
  · next h => rw [eq_of_charOfUnit (by decide) h]; rfl
  · next h => rw [eq_of_charOfUnit (by decide) h]; rfl
  · next h => rw [eq_of_charOfUnit (by decide) h]; rfl
  · next hquote hsemicolon hnewline hopen hclose =>
    have hquote' : unit ≠ 0x22 := hne '"' hquote
    have hsemicolon' : unit ≠ 0x3B := hne ';' hsemicolon
    have hnewline' : unit ≠ 0x0A := hne '\n' hnewline
    have hopen' : unit ≠ 0x7B := hne '{' hopen
    have hclose' : unit ≠ 0x7D := hne '}' hclose
    rw [classOf, if_neg hquote', if_neg hsemicolon', if_neg hnewline', if_neg hopen',
      if_neg hclose']

/-! ## Hosts that are alike -/

/-- Two hosts stand at the same index and have the end of their input at the same index, and the
units from the one to the other are of the same classes, those in the lookahead among them. -/
structure Alike (host host' : Host) : Prop where
  pos : host.pos = host'.pos
  endAt : host.endAt = host'.endAt
  units : ∀ index, host.pos ≤ index → index < host.endAt →
    classOf (unitAt host.units index) = classOf (unitAt host'.units index)
  lookahead : host.pos < host.endAt → classOf host.lookahead = classOf host'.lookahead

namespace Alike

variable {host host' : Host} (h : host.Alike host')

include h

theorem advance (hpos : host.pos < host.endAt) :
    (host.advance false).Alike (host'.advance false) := by
  have hle := host.endAt_le
  have hle' := host'.endAt_le
  have hsame := h.pos
  have hend := h.endAt
  have hnext : host.nextPos = host.pos + 1 := if_pos (by omega)
  have hnext' : host'.nextPos = host.nextPos := by
    rw [hnext, hsame]
    exact if_pos (by omega)
  have hlook : (host'.advance false).lookahead = unitAt host'.units host.nextPos :=
    congrArg (unitAt host'.units) hnext'
  refine ⟨hnext'.symm, hend, ?_, ?_⟩
  · intro index hindex hlt
    have hle : host.nextPos ≤ index := hindex
    exact h.units index (by omega) hlt
  · intro hlt
    rw [hlook]
    exact h.units host.nextPos (by omega) hlt

/-- The characters that alike hosts yield are of the same classes. -/
theorem map_ofChar_ahead : host.ahead.map CharClass.ofChar = host'.ahead.map CharClass.ofChar := by
  -- on the number of units left, since a step changes the hosts
  induction hlength : host.ahead.length generalizing host host' with
  | zero =>
    have hlength' : host'.ahead.length = 0 := by
      rw [length_ahead, ← h.pos, ← h.endAt, ← length_ahead, hlength]
    rw [List.length_eq_zero_iff.mp hlength, List.length_eq_zero_iff.mp hlength']
  | succ length ih =>
    have hpos : host.pos < host.endAt := by
      rw [length_ahead] at hlength
      omega
    have hpos' : host'.pos < host'.endAt := by rwa [← h.pos, ← h.endAt]
    rw [ahead_of_lt hpos] at hlength
    rw [ahead_of_lt hpos, ahead_of_lt hpos', List.map_cons, List.map_cons, ofChar_charOfUnit,
      ofChar_charOfUnit, h.lookahead hpos, ih (h.advance hpos) (by simpa using hlength)]

end Alike

/-! ## The effect of a scan -/

/-- The calls that a scan makes of a host: its steps, and the end mark behind them if it found its
token, whose symbol has been set by then. -/
def scanCalls (found : Bool) (steps : Nat) : List Call :=
  List.replicate steps (.advance false) ++ if found then [.markEnd Token.Kind.llvmIr.symbol] else []

/-- What a scan does to a host and reports of it: whether it found its token, the number of its
steps, and its events. -/
structure Effect (host : Host) (scan : Scan Host) (matched : Bool) (steps : Nat)
    (events : Array Log.Event) : Prop where
  found : scan.found = matched
  events : scan.events = events
  pos : scan.input.pos = host.pos + steps
  calls : scan.input.calls.toList = host.calls.toList ++ scanCalls matched steps
  endMark : scan.input.endMark = if matched then some (host.pos + steps) else host.endMark

theorem effect_toScan {host : Host} {walk : Walk} (hlength : walk.length ≤ host.endAt - host.pos) :
    host.Effect (walk.toScan #[] (host.forward walk.length)) walk.found walk.length
      (#[] ++ walk.report.toArray) := by
  have hpos := pos_forward_of_le hlength
  have hcalls := host.calls_forward walk.length
  cases hfound : walk.found with
  | true =>
    rw [Walk.toScan_of_found hfound]
    refine ⟨rfl, rfl, hpos, ?_, congrArg some hpos⟩
    have hpush : (Input.markEnd (Input.recognize .llvmIr (host.forward walk.length))).calls.toList =
        (host.forward walk.length).calls.toList ++ [.markEnd Token.Kind.llvmIr.symbol] :=
      Array.toList_push
    rw [hpush, hcalls, List.append_assoc]
    rfl
  | false =>
    rw [Walk.toScan_of_not_found hfound]
    refine ⟨rfl, rfl, hpos, ?_, endMark_forward _ _⟩
    rw [hcalls, scanCalls, if_neg Bool.false_ne_true, List.append_nil]

theorem effect_of_not_contains (host : Host) : host.Effect ⟨false, host, #[]⟩ false 0 #[] :=
  ⟨rfl, rfl, rfl, (List.append_nil _).symm, rfl⟩

end Host

namespace Block

/-- A walk tells characters apart by their classes only. -/
theorem State.walk_eq_of_map_ofChar (state : State) {chars chars' : List Char}
    (h : chars.map CharClass.ofChar = chars'.map CharClass.ofChar) :
    state.walk chars = state.walk chars' := by
  induction chars generalizing state chars' with
  | nil => rw [List.map_eq_nil_iff.mp h.symm]
  | cons char chars ih =>
    obtain ⟨char', rest, rfl, hchar, hrest⟩ := List.map_eq_cons_iff.mp h.symm
    cases hmove : state.move (.ofChar char) with
    | found => rw [walk_cons_of_found hmove, walk_cons_of_found (hchar ▸ hmove)]
    | next after event? =>
      rw [walk_cons_of_next hmove, walk_cons_of_next (hchar ▸ hmove), ih after hrest.symm]

end Block

namespace Host

section Scans

variable {host : Host} {valid : TokenFlags} {scan : Block.Scan Host}

/-- A scan of a host for an accepted token has the effect of the walk over what the host yields. -/
theorem effect_of_contains (hlimit : host.endAt - host.pos < offsetLimit)
    (hvalid : valid.contains .llvmIr = true) {walk : Block.Walk}
    (hwalk : Block.State.start.walk host.ahead = walk) : ∃ scan,
    Block.scan valid host = .ok scan ∧
      host.Effect scan walk.found walk.length (#[] ++ walk.report.toArray) := by
  subst hwalk
  have hlength := Block.State.length_walk_le .start host.ahead
  rw [← length_ahead] at hlimit
  rw [length_ahead] at hlength
  have hflag : valid.contains .llvmIr = TokenFlags.contains ⟨[true]⟩ .llvmIr := hvalid
  exact ⟨_, (Block.scan_congr hflag host).trans (Block.scan_host hlimit []), effect_toScan hlength⟩

/-- Where the input has ended a scan makes no call. -/
theorem scan_of_endAt_le (hend : host.endAt ≤ host.pos) (h : Block.scan valid host = .ok scan) :
    scan.found = false ∧ scan.input = host := by
  have hatEnd : Input.atEnd host = .ok true := congrArg Except.ok (decide_eq_true hend)
  unfold Block.scan at h
  split at h
  · rw [Block.Scan.run_of_atEnd hatEnd] at h
    cases h
    exact ⟨rfl, rfl⟩
  · cases h
    exact ⟨rfl, rfl⟩

end Scans

/-- One effect is had on both of two hosts that are alike. -/
theorem Alike.exists_effect {host host' : Host} (h : host.Alike host')
    (hlimit : host.endAt - host.pos < offsetLimit) {valid valid' : TokenFlags}
    (hvalid : valid.contains .llvmIr = valid'.contains .llvmIr) :
    ∃ (scan scan' : Block.Scan Host) (matched : Bool) (steps : Nat) (events : Array Log.Event),
      Block.scan valid host = .ok scan ∧ Block.scan valid' host' = .ok scan' ∧
      host.Effect scan matched steps events ∧ host'.Effect scan' matched steps events ∧
      steps ≤ host.endAt - host.pos := by
  cases hflag : valid.contains .llvmIr with
  | false =>
    exact ⟨_, _, false, 0, #[], Block.scan_of_not_contains hflag host,
      Block.scan_of_not_contains (hvalid ▸ hflag) host', effect_of_not_contains host,
      effect_of_not_contains host', Nat.zero_le _⟩
  | true =>
    have hlimit' : host'.endAt - host'.pos < offsetLimit := by rwa [← h.pos, ← h.endAt]
    have hwalk := Block.State.start.walk_eq_of_map_ofChar h.map_ofChar_ahead
    have hlength := Block.State.length_walk_le .start host.ahead
    rw [length_ahead] at hlength
    obtain ⟨scan, hscan, heffect⟩ := effect_of_contains hlimit hflag rfl
    obtain ⟨scan', hscan', heffect'⟩ := effect_of_contains hlimit' (hvalid ▸ hflag) hwalk.symm
    exact ⟨scan, scan', _, _, _, hscan, hscan', heffect, heffect', hlength⟩

/-- **A scan sees the classes of the units in front of the end of the input, and nothing else.**
Hosts that are alike are scanned alike, directly and through the plug-in, up to the end of the input
at most, and not at all when they stand there. -/
theorem scan_sees_classes {host host' : Host} (h : host.Alike host')
    (hlimit : host.endAt - host.pos < offsetLimit) {valid valid' : TokenFlags}
    (hvalid : valid.contains .llvmIr = valid'.contains .llvmIr)
    (payload payload' : Plugin.Payload) :
    ∃ (scan scan' : Block.Scan Host) (matched : Bool) (steps : Nat) (events : Array Log.Event),
      Block.scan valid host = .ok scan ∧ Block.scan valid' host' = .ok scan' ∧
      host.Effect scan matched steps events ∧ host'.Effect scan' matched steps events ∧
      Plugin.scan (some payload) (some host) (some valid) = .ok (Plugin.reported scan) ∧
      Plugin.scan (some payload') (some host') (some valid') = .ok (Plugin.reported scan') ∧
      (Plugin.reported scan).events = (Plugin.reported scan').events ∧
      host.pos + steps ≤ max host.pos host.endAt ∧
      (host.endAt ≤ host.pos → matched = false ∧ scan.input = host ∧ scan'.input = host') := by
  obtain ⟨scan, scan', matched, steps, events, hscan, hscan', heffect, heffect', hsteps⟩ :=
    h.exists_effect hlimit hvalid
  refine ⟨scan, scan', matched, steps, events, hscan, hscan', heffect, heffect', ?_, ?_, ?_, ?_, ?_⟩
  · rw [Plugin.scan_eq_map_reported, hscan]
    rfl
  · rw [Plugin.scan_eq_map_reported, hscan']
    rfl
  · simp only [Plugin.reported, heffect.found, heffect'.found, heffect.events, heffect'.events]
  · omega
  · intro hend
    have hend' : host'.endAt ≤ host'.pos := by rwa [← h.pos, ← h.endAt]
    obtain ⟨hfound, hinput⟩ := scan_of_endAt_le hend hscan
    obtain ⟨-, hinput'⟩ := scan_of_endAt_le hend' hscan'
    exact ⟨heffect.found.symm.trans hfound, hinput, hinput'⟩

/-- Units that are no characters on one side, and units outside the input on both. -/
theorem scan_sees_classes_of_invalid_units :
    let host := start #[0x22, -1, 0x7B, 0xD800, 0x7D, 0x7D, 0x22] 1 (some 6)
    let host' := start #[0x7B, 0x00, 0x7B, 0x61, 0x7D, 0x7D] 1 none
    host.Alike host' ∧ host.endAt - host.pos < offsetLimit ∧
    TokenFlags.contains ⟨[true]⟩ .llvmIr = TokenFlags.contains ⟨[true, false]⟩ .llvmIr ∧
    ∃ (scan scan' : Block.Scan Host) (matched : Bool) (steps : Nat) (events : Array Log.Event),
      Block.scan ⟨[true]⟩ host = .ok scan ∧ Block.scan ⟨[true, false]⟩ host' = .ok scan' ∧
      host.Effect scan matched steps events ∧ host'.Effect scan' matched steps events ∧
      Plugin.scan (some default) (some host) (some ⟨[true]⟩) = .ok (Plugin.reported scan) ∧
      Plugin.scan (some default) (some host') (some ⟨[true, false]⟩) =
        .ok (Plugin.reported scan') ∧
      (Plugin.reported scan).events = (Plugin.reported scan').events ∧
      host.pos + steps ≤ max host.pos host.endAt ∧
      (host.endAt ≤ host.pos → matched = false ∧ scan.input = host ∧ scan'.input = host') := by
  intro host host'
  have hunits : ∀ index < 6, 1 ≤ index →
      classOf (unitAt host.units index) = classOf (unitAt host'.units index) := by decide
  have halike : host.Alike host' :=
    ⟨rfl, rfl, fun index hle hlt => hunits index hlt hle, fun _ => by decide⟩
  have hlimit : host.endAt - host.pos < offsetLimit := by decide
  exact ⟨halike, hlimit, rfl, scan_sees_classes halike hlimit rfl default default⟩

end Host

end AsmBlock
