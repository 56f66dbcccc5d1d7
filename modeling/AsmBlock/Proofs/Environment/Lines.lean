import AsmBlock.Environment
import AsmBlock.Proofs.Log.Reading
import AsmBlock.Proofs.Host.Mirror
import AsmBlock.Proofs.Plugin.Scanning
import AsmBlock.Proofs.SourceInput.Safety

/-!
# The lines of a scan

The lines that are written for a scan are those of its events that the filter admits, whatever
filters admit.  The filter is the one that was set when the logger was first set up, so it does not
matter how often that is done (`setUpLog_start`).  The events of a scan are the report of a walk
(`Block.exists_walk_of_scan`), in which all but the last are changes of the depth.  So a filter that
admits no changes of the depth leaves one line, with the plug-in's own behind it
(`lines_follow_filter`).
-/

namespace AsmBlock

namespace Log.Logger

variable {admits : Admission}

/-! ## Lines -/

/-- A logger that has been set up. -/
def ofSetting (setting : Option String) : Logger := ⟨true, setting⟩

theorem lines_fresh (events : Array Event) : fresh.lines admits events = [] := by
  simp [lines, allows, fresh]

theorem lines_ofSetting_none (events : Array Event) :
    (ofSetting none).lines admits events = [] := by
  simp [lines, allows, ofSetting]

/-- Whatever is written is written with the filter `trace` as well, in the same order. -/
theorem sublist_lines_trace (h : LongestTargetDecides admits) (logger : Logger)
    (events : Array Event) :
    (logger.lines admits events).Sublist ((ofSetting (some "trace")).lines admits events) := by
  have hall : events.toList.filter ((ofSetting (some "trace")).allows admits) =
      events.toList := by
    rw [List.filter_eq_self]
    intro event _
    exact h.admits_trace event.target event.level
  rw [lines, lines, hall]
  exact List.filter_sublist.map Event.line

/-- A filter that does not admit the changes of the depth leaves the line that tells how the walk
ended. -/
theorem lines_of_walk {text : String} {events : Array Event} {chars : List Char}
    {rest : List Event} (hdebug : admits text "autolang_scanner::llvm_ir" .debug = true)
    (htrace : admits text "autolang_scanner::llvm_ir" .trace = false)
    (hevents : events.toList = (Block.State.start.walk chars).report ++ rest) :
    (ofSetting (some text)).lines admits events = (Block.State.start.walk chars).outcome.line ::
      (rest.filter ((ofSetting (some text)).allows admits)).map Event.line := by
  have hallows (event : Event) : (ofSetting (some text)).allows admits event =
      admits text event.target event.level := rfl
  have hnone : (Block.State.start.walk chars).events.filter
      ((ofSetting (some text)).allows admits) = [] := by
    rw [List.filter_eq_nil_iff]
    intro event hevent
    obtain ⟨hlevel, htarget⟩ := Block.State.traced_of_mem_events hevent
    rw [hallows, htarget, hlevel, htrace]
    exact Bool.false_ne_true
  have hsome : (ofSetting (some text)).allows admits
      (Block.State.start.walk chars).outcome = true := by
    rw [hallows, Block.Walk.target_outcome, Block.Walk.level_outcome, hdebug]
  rw [lines, hevents, Block.Walk.report, List.append_assoc, List.filter_append,
    hnone, List.nil_append, List.singleton_append, List.filter_cons_of_pos hsome, List.map_cons]

end Log.Logger

namespace Environment

open Log

/-! ## Setting up the logger -/

/-- However often the logger was set up, after one more time it works as it is set. -/
theorem setUpLog_start (setting : Option String) (count : Nat) :
    (start setting count).setUpLog = ⟨setting, .ofSetting setting⟩ := by
  induction count with
  | zero => rfl
  | succ count ih =>
    have hsucc : start setting (count + 1) = (start setting count).setUpLog := rfl
    rw [hsucc, ih]
    rfl

theorem start_of_pos {count : Nat} (h : 0 < count) (setting : Option String) :
    start setting count = ⟨setting, .ofSetting setting⟩ := by
  cases count with
  | zero => exact absurd h (Nat.lt_irrefl 0)
  | succ count => exact setUpLog_start setting count

/-- How the lines of a scan depend on the filter that is set and on how often the logger was set up.
From `first` times on that changes nothing, and before nothing is written.  `behind` are the lines
that follow those of the scan itself. -/
structure FollowsFilter (admits : Admission)
    (written : Option String → Nat → Except Fault (List String)) (first : Nat)
    (valid : TokenFlags) (found : Bool) (behind : String → List String) : Prop where
  early : ∀ setting count, count < first → written setting count = .ok []
  repeated : ∀ setting count, first ≤ count → written setting count = written setting first
  unset : ∀ count, written none count = .ok []
  sublist : ∀ setting count, ∃ lines all, written setting count = .ok lines ∧
    written (some "trace") count = .ok all ∧ lines.Sublist all
  refused : valid.contains .llvmIr = false → ∀ setting count, written setting count = .ok []
  accepted : valid.contains .llvmIr = true → ∃ outcome : Event,
    outcome.level = .debug ∧ outcome.target = "autolang_scanner::llvm_ir" ∧
    (outcome = .blockMatched ↔ found = true) ∧
    ∀ text count, first ≤ count →
      admits text "autolang_scanner::llvm_ir" .debug = true →
      admits text "autolang_scanner::llvm_ir" .trace = false →
      written (some text) count = .ok (outcome.line :: behind text)

section Lines

variable {admits : Admission} (hadmits : LongestTargetDecides admits)

include hadmits

/-- Lines that a logger writes for events follow the filter, if the events are those of a scan
with others behind them. -/
theorem FollowsFilter.of_events {written : Option String → Nat → Except Fault (List String)}
    {first : Nat} {valid : TokenFlags} {found : Bool} {behind : String → List String}
    (events : Array Event)
    (hwritten : ∀ setting count, written setting count =
      .ok (if first ≤ count then (Logger.ofSetting setting).lines admits events else []))
    (hrefused : valid.contains .llvmIr = false → events = #[])
    (haccepted : valid.contains .llvmIr = true → ∃ chars rest,
      found = (Block.State.start.walk chars).found ∧
      events.toList = (Block.State.start.walk chars).report ++ rest ∧
      ∀ text, (rest.filter ((Logger.ofSetting (some text)).allows admits)).map Event.line =
        behind text) :
    FollowsFilter admits written first valid found behind where
  early := by
    intro setting count hcount
    rw [hwritten, if_neg (Nat.not_le.mpr hcount)]
  repeated := by
    intro setting count hcount
    rw [hwritten, if_pos hcount, hwritten, if_pos (Nat.le_refl first)]
  unset := by
    intro count
    rw [hwritten, Logger.lines_ofSetting_none, ite_self]
  sublist := by
    intro setting count
    refine ⟨_, _, hwritten setting count, hwritten _ count, ?_⟩
    split
    · exact Logger.sublist_lines_trace hadmits _ events
    · exact .slnil
  refused := by
    intro hnot setting count
    have hnone : (Logger.ofSetting setting).lines admits #[] = [] := rfl
    rw [hwritten, hrefused hnot, hnone, ite_self]
  accepted := by
    intro hvalid
    obtain ⟨chars, rest, hfound, hevents, hrest⟩ := haccepted hvalid
    refine ⟨(Block.State.start.walk chars).outcome, Block.Walk.level_outcome _,
      Block.Walk.target_outcome _, ?_, ?_⟩
    · rw [hfound]
      exact Block.Walk.outcome_eq_blockMatched_iff
    · intro text count hcount hdebug htrace
      rw [hwritten, if_pos hcount, Logger.lines_of_walk hdebug htrace hevents, hrest]

/-! ## A scan of a source, and a scan of the plug-in -/

theorem followsFilter_scanSource {source : Source} {pos : Nat} {valid : TokenFlags}
    {result : Block.Scan SourceInput}
    (h : Block.scan valid (SourceInput.ofCursor (source.cursor pos)) = .ok result) :
    FollowsFilter admits
      (fun setting count => (start setting count).scanSource source pos valid admits) 1 valid
      result.found (fun _ => []) := by
  have hlines : ∀ setting count, (start setting count).scanSource source pos valid admits =
      .ok (if 1 ≤ count then (Logger.ofSetting setting).lines admits result.events else []) := by
    intro setting count
    have hscan : (start setting count).scanSource source pos valid admits =
        .ok ((start setting count).logger.lines admits result.events) := by
      rw [scanSource, h]
      rfl
    rw [hscan]
    split
    · next hcount => rw [start_of_pos hcount]
    · next hcount =>
      cases Nat.eq_zero_of_not_pos hcount
      exact congrArg Except.ok (Logger.lines_fresh result.events)
  refine .of_events hadmits result.events hlines ?_ ?_
  · intro hnot
    rw [Block.scan_of_not_contains hnot] at h
    cases h
    rfl
  · intro hvalid
    obtain ⟨chars, hfound, hevents⟩ := Block.exists_walk_of_scan hvalid h
    exact ⟨chars, [], hfound, hevents.trans (List.append_nil _).symm, fun _ => rfl⟩

/-- What the plug-in adds to the lines of a scan. -/
def pluginLines (admits : Admission) (found : Bool) (text : String) : List String :=
  if found = true ∧ admits text "autolang_scanner::ffi" .debug = true then
    ["DEBUG autolang_scanner::ffi: external token recognized token=llvm_ir"]
  else []

omit hadmits in
theorem map_line_plugin (found : Bool) (text : String) :
    ((if found then [Event.tokenRecognized .llvmIr] else []).filter
      ((Logger.ofSetting (some text)).allows admits)).map Event.line =
      pluginLines admits found text := by
  have hallows : (Logger.ofSetting (some text)).allows admits (.tokenRecognized .llvmIr) =
      admits text "autolang_scanner::ffi" .debug := rfl
  have hline : (Event.tokenRecognized .llvmIr).line =
      "DEBUG autolang_scanner::ffi: external token recognized token=llvm_ir" := by decide
  cases found with
  | false => rfl
  | true =>
    cases hffi : admits text "autolang_scanner::ffi" .debug with
    | false => simp [pluginLines, hallows, hffi]
    | true => simp [pluginLines, hallows, hffi, hline]

theorem followsFilter_scanHost {host : Host} {valid : TokenFlags} {result : Block.Scan Host}
    (h : Block.scan valid host = .ok result) :
    FollowsFilter admits
      (fun setting count => (start setting count).scanHost host valid admits) 0 valid
      result.found (pluginLines admits result.found) := by
  have hlines : ∀ setting count, (start setting count).scanHost host valid admits =
      .ok (if 0 ≤ count then
        (Logger.ofSetting setting).lines admits (Plugin.reported result).events else []) := by
    intro setting count
    have hcreate : (start setting count).createPayload =
        (Plugin.create, ⟨setting, .ofSetting setting⟩) := by
      rw [createPayload, setUpLog_start]
    have hscan := Plugin.scan_eq_map_reported default host valid
    rw [h] at hscan
    rw [scanHost, hcreate, Plugin.create, if_pos (Nat.zero_le count)]
    simp only [hscan]
    rfl
  refine .of_events hadmits (Plugin.reported result).events hlines ?_ ?_
  · intro hnot
    rw [Block.scan_of_not_contains hnot] at h
    cases h
    rfl
  · intro hvalid
    obtain ⟨chars, hfound, hevents⟩ := Block.exists_walk_of_scan hvalid h
    refine ⟨chars, if result.found then [.tokenRecognized .llvmIr] else [], hfound, ?_,
      map_line_plugin result.found⟩
    rw [Plugin.reported, ← hevents]
    split <;> simp

end Lines

/-- **What a scan writes follows the filter**, whatever filters admit, as long as the longest target
decides.  Once the logger was set up the lines of a scan are the same however often that is done,
and the plug-in sets it up itself.  A filter that admits how a scan ended and not the changes of the
depth leaves one line of each scan for an accepted token, and the plug-in's own behind a token that
was found. -/
theorem lines_follow_filter {admits : Admission} (hadmits : LongestTargetDecides admits)
    (source : Source) (pos : Nat) (valid : TokenFlags) :
    (∃ result, Block.scan valid (SourceInput.ofCursor (source.cursor pos)) = .ok result ∧
      FollowsFilter admits
        (fun setting count => (start setting count).scanSource source pos valid admits) 1
        valid result.found (fun _ => [])) ∧
    ∃ result, Plugin.scan Plugin.create
        (some (Host.start (Host.unitsOfText source.text) pos none)) (some valid) = .ok result ∧
      FollowsFilter admits (fun setting count => (start setting count).scanHost
        (Host.start (Host.unitsOfText source.text) pos none) valid admits) 0
        valid result.found (pluginLines admits result.found) := by
  refine ⟨?_, ?_⟩
  · obtain ⟨result, -, hscan, -⟩ :=
      SourceInput.exists_scan (SourceInput.within_ofCursor source pos) valid
    exact ⟨result, hscan, followsFilter_scanSource hadmits hscan⟩
  · have hlimit : (Host.start (Host.unitsOfText source.text) pos none).endAt -
        (Host.start (Host.unitsOfText source.text) pos none).pos < offsetLimit := by
      have hlength := Utf8.length_le_size source.text.toList
      rw [Utf8.size_toList] at hlength
      rw [(Host.holds_start source.text pos).endAt]
      exact Nat.lt_of_le_of_lt (Nat.le_trans (Nat.sub_le _ _) hlength) source.size_lt_offsetLimit
    obtain ⟨result, hscan⟩ := Block.exists_scan_host hlimit valid
    refine ⟨Plugin.reported result, ?_, followsFilter_scanHost hadmits hscan⟩
    rw [Plugin.create, Plugin.scan_eq_map_reported, hscan]
    rfl

/-- With a filter of directives that tells the scan and the plug-in apart, and a logger that was set
up twice before, a nested block leaves two lines. -/
theorem lines_follow_filter_of_nested :
    LongestTargetDecides Filter.admission ∧
    (start (some "autolang_scanner=trace,autolang_scanner::llvm_ir=debug") 2).scanHost
      (Host.start (Host.unitsOfText "\x7b\x7d\x7d") 0 none) ⟨[true]⟩ Filter.admission =
        .ok ["DEBUG autolang_scanner::llvm_ir: llvm_ir: matched",
          "DEBUG autolang_scanner::ffi: external token recognized token=llvm_ir"] := by
  have hadmits := Filter.longestTargetDecides_admission
  refine ⟨hadmits, ?_⟩
  let directives : List Directive :=
    [⟨"autolang_scanner", .upTo .trace⟩, ⟨"autolang_scanner::llvm_ir", .upTo .debug⟩]
  have hwritten : Filter.written directives =
      "autolang_scanner=trace,autolang_scanner::llvm_ir=debug" := by decide
  have hadmission (target : String) (level : Level) : Filter.admission
      "autolang_scanner=trace,autolang_scanner::llvm_ir=debug" target level =
        (Log.Filter.mk directives).admits target level := by
    rw [← hwritten, Filter.admission, Filter.parse_written (List.cons_ne_nil _ _) (by decide)]
  obtain ⟨-, result, hscan, hfollows⟩ :=
    lines_follow_filter hadmits (Source.ofText "\x7b\x7d\x7d" (by decide)) 0 ⟨[true]⟩
  have hfound : result.found = true := by
    have hcomputed : ((Plugin.scan Plugin.create
        (some (Host.start (Host.unitsOfText "\x7b\x7d\x7d") 0 none))
        (some ⟨[true]⟩)).map (·.found)).toOption = some true := by decide +kernel
    have hresult : ((Except.ok result : Except Fault _).map (·.found)).toOption = some true :=
      hscan ▸ hcomputed
    exact Option.some.inj hresult
  rw [hfound] at hfollows
  obtain ⟨outcome, -, -, hmatched, hlines⟩ := hfollows.accepted rfl
  cases hmatched.mpr rfl
  have hdebug := hadmission "autolang_scanner::llvm_ir" .debug
  have htrace := hadmission "autolang_scanner::llvm_ir" .trace
  have hplugin : pluginLines Filter.admission true
      "autolang_scanner=trace,autolang_scanner::llvm_ir=debug" =
        ["DEBUG autolang_scanner::ffi: external token recognized token=llvm_ir"] := by
    rw [pluginLines, hadmission]
    exact if_pos (by decide)
  have hwhole := hlines _ 2 (Nat.zero_le 2) (hdebug.trans (by decide)) (htrace.trans (by decide))
  rw [hplugin] at hwhole
  exact hwhole

end Environment

end AsmBlock
