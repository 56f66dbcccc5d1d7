import AsmBlock.Plugin
import AsmBlock.Proofs.Host.Scanning
import AsmBlock.Proofs.SourceInput.Scanning

/-!
# The plug-in scans what the source scan scans

A host that holds the characters of a source, one unit for each, is scanned by the plug-in with the
same outcome as the source itself: the unit indices on the one side are the byte offsets of the same
characters on the other (`Plugin.Agreement`).
-/

namespace AsmBlock

namespace Source

/-- The byte offset at which the character with a given index starts. -/
def offsetAt (source : Source) (index : Nat) : Nat := Utf8.size (source.text.toList.take index)

theorem restAt_offsetAt (source : Source) (index : Nat) :
    source.RestAt (source.offsetAt index) (source.text.toList.drop index) :=
  ⟨source.text.toList.take index, (List.take_append_drop index _).symm, rfl⟩

theorem offsetAt_add (source : Source) (index count : Nat) :
    source.offsetAt (index + count) =
      source.offsetAt index + Utf8.size ((source.text.toList.drop index).take count) := by
  rw [offsetAt, List.take_add, Utf8.size_append]
  rfl

end Source

namespace Host

/-- The host holds the characters of a text, one unit for each, and the end of its input behind the
last of them.  It stands at the unit with a given index, and the lookahead is that unit. -/
structure StandsAt (host : Host) (text : String) (index : Nat) : Prop where
  units : host.units.toList.take text.toList.length =
    text.toList.map fun char => Int32.ofNat char.toNat
  endAt : host.endAt = text.toList.length
  pos : host.pos = index
  lookahead : host.lookahead = unitAt host.units index

theorem standsAt_start {text : String} {index : Nat} (hindex : index ≤ text.toList.length) :
    (start (unitsOfText text) index none).StandsAt text index := by
  have hsize : (unitsOfText text).size = text.toList.length := by simp [unitsOfText]
  have hmin : min index (unitsOfText text).size = index := by omega
  refine ⟨?_, ?_, hmin, ?_⟩
  · exact List.take_of_length_le (by simp [start, unitsOfText])
  · simp [start, hsize]
  · rw [start, hmin]

theorem charOfUnit_ofNat (char : Char) : charOfUnit (Int32.ofNat char.toNat) = char := by
  have hlt : char.toNat < 2 ^ 31 := by
    have hvalid := char.valid
    rcases hvalid with h | ⟨-, h⟩ <;> simp only [Char.toNat] <;> omega
  rw [charOfUnit, Int32.toNatClampNeg_ofNat_of_lt hlt, Char.ofNat_toNat]

theorem StandsAt.ahead_eq {host : Host} {text : String} {index : Nat}
    (h : host.StandsAt text index) : host.ahead = text.toList.drop index := by
  have hle := host.endAt_le
  rw [h.endAt] at hle
  have hchars : (host.units.toList.take text.toList.length).map charOfUnit = text.toList := by
    rw [h.units, List.map_map]
    exact (List.map_congr_left fun char _ => charOfUnit_ofNat char).trans (List.map_id _)
  rw [ahead, h.endAt, h.pos]
  split
  · next hlt =>
    have hlength : index < (host.units.toList.take text.toList.length).length := by simp; omega
    have hlook : host.lookahead = (host.units.toList.take text.toList.length)[index] := by
      rw [h.lookahead, unitAt]
      simp [show index < host.units.size by omega]
    rw [hlook, ← List.map_cons, ← List.drop_eq_getElem_cons, List.map_drop, hchars]
  · next hge =>
    rw [List.drop_of_length_le (by omega)]

end Host

namespace Plugin

open Block

/-- How a scan of a host at the unit with a given index and a scan of a source at the offset of the
same character compare.  The events are those with the plug-in's own among them. -/
structure Agreement (source : Source) (index : Nat) (host : Host) (hostScan : Scan Host)
    (sourceScan : Scan SourceInput) (token? : Option Token) : Prop where
  found : hostScan.found = token?.isSome
  /-- Both inputs stop in front of the same character. -/
  pos : sourceScan.input.pos = source.offsetAt hostScan.input.pos
  inside : index ≤ hostScan.input.pos ∧ hostScan.input.pos ≤ source.text.toList.length
  /-- The end of the token is marked where the host stops, after its symbol has been set. -/
  matched : ∀ token, token? = some token →
    hostScan.input.endMark = some hostScan.input.pos ∧
    source.offsetAt hostScan.input.pos = token.stop ∧
    hostScan.input.symbol = Token.Kind.llvmIr.symbol ∧
    hostScan.input.calls.toList = host.calls.toList ++
      List.replicate (hostScan.input.pos - index) (.advance false) ++
        [.markEnd Token.Kind.llvmIr.symbol]
  unmatched : token? = none →
    hostScan.input.endMark = host.endMark ∧ hostScan.input.symbol = host.symbol
  events : hostScan.events.toList = sourceScan.events.toList ++
    if hostScan.found then [.tokenRecognized .llvmIr] else []
  target : ∀ event ∈ sourceScan.events.toList, event.target = "autolang_scanner::llvm_ir"

theorem scan_of_scan {flag : Bool} {host : Host} {scan : Scan Host}
    (h : Block.scan ⟨[flag]⟩ host = .ok scan) (payload : Payload) (flags : List Bool) :
    Plugin.scan (some payload) (some host) (some ⟨flag :: flags⟩) =
      .ok ⟨scan.found, some scan.input,
        if scan.found then scan.events.push (resultEvent scan.input) else scan.events⟩ := by
  have hpayload : payload.scan (TokenFlags.declared ⟨flag :: flags⟩) host = .ok scan := h
  rw [Plugin.scan, hpayload]
  rfl

theorem resultEvent_of_symbol {host : Host} {kind : Token.Kind} (h : host.symbol = kind.symbol) :
    resultEvent host = .tokenRecognized kind := by
  rw [resultEvent, Host.recognized, h, Token.Kind.ofSymbol_symbol]

section Agreement

variable {source : Source} {index : Nat} {host : Host}

/-- A token that is not accepted is looked for on neither side. -/
theorem agreement_of_not_accepted (hindex : index ≤ source.text.toList.length)
    (hpos : host.pos = index) :
    Agreement source index host ⟨false, host, #[]⟩
      ⟨false, SourceInput.ofCursor (source.cursor (source.offsetAt index)), #[]⟩ none := by
  have hle := (source.restAt_offsetAt index).pos_le
  refine ⟨rfl, ?_, ?_, ?_, ?_, rfl, ?_⟩
  · rw [hpos]
    exact Nat.min_eq_left hle
  · rw [hpos]
    exact ⟨Nat.le_refl _, hindex⟩
  · intro token htoken
    cases htoken
  · intro _
    exact ⟨rfl, rfl⟩
  · intro event hevent
    cases hevent

variable (hstands : host.StandsAt source.text index) {walk : Walk}
  (hwalk : State.start.walk (source.text.toList.drop index) = walk)

include hstands hwalk

theorem pos_forward_walk (hindex : index ≤ source.text.toList.length) :
    (host.forward walk.length).pos = index + walk.length ∧
    index + walk.length ≤ source.text.toList.length := by
  have hlength := State.length_walk_le .start (source.text.toList.drop index)
  rw [hwalk, List.length_drop] at hlength
  have hunits := host.endAt_le
  rw [hstands.endAt] at hunits
  refine ⟨?_, by omega⟩
  rw [Host.pos_forward (by rw [hstands.pos]; omega), hstands.pos]

/-- Both sides see the walk over the same characters. -/
theorem scans_of_walk :
    Block.scan ⟨[true]⟩ host = .ok (walk.toScan #[] (host.forward walk.length)) ∧
    Block.scan ⟨[true]⟩ (SourceInput.ofCursor (source.cursor (source.offsetAt index))) =
      .ok (walk.toScan #[] ((SourceInput.ofCursor (source.cursor (source.offsetAt index))).moveTo
        (source.offsetAt (index + walk.length)))) ∧
    scanSource source (source.offsetAt index) ⟨[true]⟩ = .ok (if walk.found then
      some ⟨.llvmIr, source.offsetAt index, source.offsetAt (index + walk.length)⟩ else none) := by
  have hrest := source.restAt_offsetAt index
  have hlength : host.ahead.length < offsetLimit := by
    rw [hstands.ahead_eq]
    exact hrest.length_lt
  have hhost := scan_host hlength []
  rw [hstands.ahead_eq, hwalk] at hhost
  have hpos : (SourceInput.ofCursor (source.cursor (source.offsetAt index))).pos =
      source.offsetAt index := Nat.min_eq_left hrest.pos_le
  have hahead : (SourceInput.ofCursor (source.cursor (source.offsetAt index))).cursor.source.Ahead
      (SourceInput.ofCursor (source.cursor (source.offsetAt index))).pos 0
      (source.text.toList.drop index) := hpos.symm ▸ hrest.ahead
  have hsource := scan_of_ahead hahead []
  rw [hwalk, hpos, Nat.add_zero, ← source.offsetAt_add] at hsource
  have htoken := scanSource_of_restAt hrest []
  rw [hwalk, ← source.offsetAt_add] at htoken
  exact ⟨hhost, hsource, htoken⟩

theorem agreement_of_found (hindex : index ≤ source.text.toList.length) (input : SourceInput) :
    Agreement source index host
      ⟨true, Input.markEnd (Input.recognize .llvmIr (host.forward walk.length)),
        (#[] ++ walk.report.toArray).push (.tokenRecognized .llvmIr)⟩
      ⟨true, Input.markEnd (Input.recognize .llvmIr
        (input.moveTo (source.offsetAt (index + walk.length)))), #[] ++ walk.report.toArray⟩
      (some ⟨.llvmIr, source.offsetAt index, source.offsetAt (index + walk.length)⟩) := by
  obtain ⟨hpos, hinside⟩ := pos_forward_walk hstands hwalk hindex
  have hat : (Input.markEnd (Input.recognize .llvmIr (host.forward walk.length))).pos =
      index + walk.length := hpos
  refine ⟨rfl, ?_, ?_, ?_, ?_, ?_, ?_⟩
  · rw [hat]
    rfl
  · rw [hat]
    exact ⟨Nat.le_add_right _ _, hinside⟩
  · intro token htoken
    cases htoken
    refine ⟨rfl, by rw [hat], rfl, ?_⟩
    have hcalls := host.calls_forward walk.length
    rw [hat, Nat.add_sub_cancel_left, ← hcalls]
    exact Array.toList_push
  · intro hnone
    cases hnone
  · simp
  · intro event hevent
    rw [← hwalk] at hevent
    exact State.target_of_mem_report (by simpa using hevent)

theorem agreement_of_not_found (hindex : index ≤ source.text.toList.length)
    (input : SourceInput) :
    Agreement source index host
      ⟨false, host.forward walk.length, #[] ++ walk.report.toArray⟩
      ⟨false, input.moveTo (source.offsetAt (index + walk.length)), #[] ++ walk.report.toArray⟩
      none := by
  obtain ⟨hpos, hinside⟩ := pos_forward_walk hstands hwalk hindex
  refine ⟨rfl, ?_, ?_, ?_, ?_, ?_, ?_⟩
  · rw [hpos]
    rfl
  · rw [hpos]
    exact ⟨Nat.le_add_right _ _, hinside⟩
  · intro token htoken
    cases htoken
  · intro _
    exact ⟨Host.endMark_forward _ _, Host.symbol_forward _ _⟩
  · simp
  · intro event hevent
    rw [← hwalk] at hevent
    exact State.target_of_mem_report (by simpa using hevent)

end Agreement

/-- **The plug-in and the source scan agree.**  A scan of a host that stands at a character of a
source has the outcome, the last place, the marks and the events of the scan of the source from that
character. -/
theorem scan_agrees (source : Source) {index : Nat} (hindex : index ≤ source.text.toList.length)
    {host : Host} (hstands : host.StandsAt source.text index) (payload : Payload) (flag : Bool)
    (flags : List Bool) :
    ∃ (hostScan : Scan Host) (sourceScan : Scan SourceInput) (token? : Option Token),
      Plugin.scan (some payload) (some host) (some ⟨flag :: flags⟩) =
        .ok ⟨hostScan.found, some hostScan.input, hostScan.events⟩ ∧
      Block.scan ⟨[flag]⟩ (SourceInput.ofCursor (source.cursor (source.offsetAt index))) =
        .ok sourceScan ∧
      scanSource source (source.offsetAt index) ⟨[flag]⟩ = .ok token? ∧
      Agreement source index host hostScan sourceScan token? := by
  cases flag with
  | false =>
    refine ⟨_, _, _, ?_, ?_, ?_, agreement_of_not_accepted hindex hstands.pos⟩
    · rfl
    · rfl
    · rfl
  | true =>
    obtain ⟨hhost, hsource, htoken⟩ := scans_of_walk hstands rfl
    cases hfound : (State.start.walk (source.text.toList.drop index)).found with
    | true =>
      rw [Walk.toScan_of_found hfound] at hhost hsource
      rw [if_pos hfound] at htoken
      have hevent : resultEvent (Input.markEnd (Input.recognize .llvmIr (host.forward
          (State.start.walk (source.text.toList.drop index)).length))) =
          .tokenRecognized .llvmIr := resultEvent_of_symbol rfl
      have hplugin := scan_of_scan hhost payload flags
      rw [if_pos rfl, hevent] at hplugin
      exact ⟨_, _, _, hplugin, hsource, htoken, agreement_of_found hstands rfl hindex _⟩
    | false =>
      rw [Walk.toScan_of_not_found hfound] at hhost hsource
      rw [if_neg (by simp [hfound])] at htoken
      exact ⟨_, _, _, scan_of_scan hhost payload flags, hsource, htoken,
        agreement_of_not_found hstands rfl hindex _⟩

/-- From the second character of a text in which accented letters, a string and a block within the
block lie ahead. -/
theorem scan_agrees_on_nested_block :
    let source := Source.ofText "é\x7bü\"\x7d\"\x7d\x7d" (by decide)
    let host := Host.start (Host.unitsOfText source.text) 1 none
    1 ≤ source.text.toList.length ∧ host.StandsAt source.text 1 ∧
    ∃ (hostScan : Scan Host) (sourceScan : Scan SourceInput),
      Plugin.scan (some default) (some host) (some ⟨[true]⟩) =
        .ok ⟨hostScan.found, some hostScan.input, hostScan.events⟩ ∧
      Block.scan ⟨[true]⟩ (SourceInput.ofCursor (source.cursor (source.offsetAt 1))) =
        .ok sourceScan ∧
      scanSource source (source.offsetAt 1) ⟨[true]⟩ = .ok (some ⟨.llvmIr, 2, 9⟩) ∧
      Agreement source 1 host hostScan sourceScan (some ⟨.llvmIr, 2, 9⟩) := by
  intro source host
  have hindex : 1 ≤ source.text.toList.length := by decide
  have hstands : host.StandsAt source.text 1 := Host.standsAt_start hindex
  obtain ⟨hostScan, sourceScan, token?, hhost, hsource, htoken, hagrees⟩ :=
    scan_agrees source hindex hstands default true []
  have hcomputed : (scanSource source (source.offsetAt 1) ⟨[true]⟩).toOption =
      some (some ⟨.llvmIr, 2, 9⟩) := by decide +kernel
  rw [htoken] at hcomputed
  cases Option.some.inj hcomputed
  exact ⟨hindex, hstands, hostScan, sourceScan, hhost, hsource, htoken, hagrees⟩

end Plugin

end AsmBlock
