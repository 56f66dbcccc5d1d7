import AsmBlock.Plugin
import AsmBlock.Proofs.Block.Calls

/-!
# The scan of the plug-in

A scan of the plug-in is the scan of its host, with an event of its own behind those of a scan that
found a token (`scan_eq_map_reported`).  The event always names the token: the symbol that such a
scan leaves with the host is the token's own.  A call that passes no payload, no input or no flags
does nothing.
-/

namespace AsmBlock

namespace Plugin

/-- What the plug-in passes on of a scan of its host. -/
def reported (scan : Block.Scan Host) : Block.Scan (Option Host) where
  found := scan.found
  input := some scan.input
  events := if scan.found then scan.events.push (.tokenRecognized .llvmIr) else scan.events

section Scan

variable {valid : TokenFlags} {host : Host} {scan : Block.Scan Host}
  (h : Block.scan valid host = .ok scan)

include h

/-- A scan that found a token leaves the symbol of the token with the host. -/
theorem recognized_of_scan (hfound : scan.found = true) : scan.input.recognized = .ok .llvmIr := by
  obtain ⟨stop, hstop⟩ := Block.exists_stop_of_scan h hfound
  rw [hstop]
  exact Token.Kind.ofSymbol_symbol .llvmIr

theorem symbolUnrecognized_not_mem (error : SymbolError) :
    .symbolUnrecognized error ∉ scan.events ∧
      .symbolUnrecognized error ∉ (reported scan).events := by
  have hscan : .symbolUnrecognized error ∉ scan.events := by
    intro hevent
    have htarget : "autolang_scanner::ffi" = "autolang_scanner::llvm_ir" :=
      Block.target_of_scan h _ hevent
    exact absurd htarget (by decide)
  refine ⟨hscan, ?_⟩
  intro hevent
  unfold reported at hevent
  split at hevent
  · rcases Array.mem_push.mp hevent with hevent | hevent
    · exact hscan hevent
    · cases hevent
  · exact hscan hevent

end Scan

/-- **The plug-in scans as its host is scanned**, whatever its payload, and faults where that
faults. -/
theorem scan_eq_map_reported (payload : Payload) (host : Host) (valid : TokenFlags) :
    Plugin.scan (some payload) (some host) (some valid) =
      (Block.scan valid host).map reported := by
  have hpayload : payload.scan valid.declared host = Block.scan valid host :=
    Block.scan_congr (valid.contains_declared .llvmIr) host
  rw [Plugin.scan, hpayload]
  cases hscan : Block.scan valid host with
  | error fault => rfl
  | ok scan =>
    refine congrArg Except.ok ?_
    cases hfound : scan.found with
    | false => simp [reported, hfound]
    | true =>
      have hrecognized := recognized_of_scan hscan hfound
      simp [reported, resultEvent, hfound, hrecognized]

/-- Where something is not passed, nothing is done. -/
theorem scan_of_missing {payload? : Option Payload} {host? : Option Host}
    {valid? : Option TokenFlags} (h : payload? = none ∨ host? = none ∨ valid? = none) :
    Plugin.scan payload? host? valid? = .ok ⟨false, host?, #[]⟩ := by
  rcases h with rfl | rfl | rfl
  · rfl
  · cases payload? <;> rfl
  · cases payload? <;> cases host? <;> rfl

end Plugin

end AsmBlock
