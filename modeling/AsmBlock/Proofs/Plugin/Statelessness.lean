import AsmBlock.Plugin.Session
import AsmBlock.Proofs.Plugin.Scanning

/-!
# The plug-in keeps nothing

The entry points that make, give back, save and restore a payload leave the host alone, and so does
a scan that is not passed all it needs (`Session.Inert`).  What is seen of a session therefore
follows from its host and its work: its other steps, with whether there was a payload for each scan
(`Session.seen_eq_replay`).
-/

namespace AsmBlock

namespace Plugin

/-- Whether a command is an entry point of the payload's life cycle. -/
def Command.isLifecycle : Command → Bool
  | .create | .destroy | .save _ | .restore _ _ => true
  | _ => false

def Command.isScan : Command → Bool
  | .scan _ => true
  | _ => false

/-- Whether there is a payload behind a command. -/
def Command.holds (held : Bool) : Command → Bool
  | .create => true
  | .destroy => false
  | _ => held

/-- What the plug-in answers for a scan of the host, in place of the scan's own answer. -/
def Reply.reported : Reply → Reply
  | .scanned true events => .scanned true (events.push (.tokenRecognized .llvmIr))
  | reply => reply

namespace Session

/-- What holds of every step of a session because the entry points carry no state. -/
structure Inert (session : Session) : Prop where
  /-- The host is left as it was, with no call made of it. -/
  lifecycle : ∀ command, command.isLifecycle = true →
    (session.step command).2.host = session.clearCalls.host
  held : ∀ command, (session.step command).2.payload.isSome = command.holds session.payload.isSome
  saved : ∀ buffer, save session.payload buffer = (0, buffer) ∧
    (session.step (.save buffer)).1 = .ok (.saved 0 true)
  withoutPayload : session.payload = none → ∀ valid,
    session.step (.scan valid) = (.ok (.scanned false #[]), session.clearCalls)
  withoutInput : ∀ valid,
    session.step (.scanWithoutInput valid) = (.ok (.scanned false #[]), session.clearCalls)
  withoutFlags : session.step .scanWithoutFlags = (.ok (.scanned false #[]), session.clearCalls)
  missing : ∀ input flags, session.payload = none ∨ input = none ∨ flags = none →
    Plugin.scan session.payload input flags = .ok ⟨false, input, #[]⟩
  /-- The plug-in scans as its host is scanned with the first flag alone. -/
  scan : session.payload.isSome = true → ∀ flag flags,
    session.step (.scan ⟨flag :: flags⟩) =
      ((session.step (.scanHost ⟨[flag]⟩)).1.map Reply.reported,
        (session.step (.scanHost ⟨[flag]⟩)).2)
  recognized : ∀ command events, (session.step command).1 = .ok (.scanned true events) →
    (session.step command).2.host.recognized = .ok .llvmIr
  known : ∀ command found events, (session.step command).1 = .ok (.scanned found events) →
    ∀ error, .symbolUnrecognized error ∉ events

/-! ## Single steps -/

section Steps

variable (session : Session)

theorem host_step_of_isLifecycle {command : Command} (h : command.isLifecycle = true) :
    (session.step command).2.host = session.clearCalls.host := by
  cases command with
  | create | destroy | save | restore => rfl
  | _ => cases h

theorem save_eq (payload : Option Payload) (buffer : Option ByteArray) :
    save payload buffer = (0, buffer) := by
  cases payload <;> cases buffer <;> rfl

theorem reply_step_save (buffer : Option ByteArray) :
    (session.step (.save buffer)).1 = .ok (.saved 0 true) := by
  have hsave : save session.clearCalls.payload buffer = (0, buffer) := save_eq _ buffer
  have hsame : (buffer == buffer) = true := by
    cases buffer with
    | none => rfl
    | some bytes => exact beq_self_eq_true bytes.data
  have hrun : session.clearCalls.run (.save buffer) = .ok (.saved 0 true, session.clearCalls) := by
    simp only [run, hsave, hsame]
    rfl
  rw [step, Commands.step_of_ok hrun]

/-- A scan that is not passed everything does nothing. -/
theorem step_of_missing {command : Command} {input : Option Host} {flags : Option TokenFlags}
    (h : session.payload = none ∨ input = none ∨ flags = none)
    (hrun : session.clearCalls.run command = session.clearCalls.scan input flags)
    (hinput : input.getD session.clearCalls.host = session.clearCalls.host) :
    session.step command = (.ok (.scanned false #[]), session.clearCalls) := by
  have hmissing : Plugin.scan session.clearCalls.payload input flags = .ok ⟨false, input, #[]⟩ :=
    Plugin.scan_of_missing h
  have hscan : session.clearCalls.run command =
      .ok (.scanned false #[], ⟨session.payload, input.getD session.clearCalls.host⟩) := by
    rw [hrun, Session.scan, hmissing]
    rfl
  rw [step, Commands.step_of_ok hscan, hinput]
  rfl

theorem step_scan_of_payload_eq_none (h : session.payload = none) (valid : TokenFlags) :
    session.step (.scan valid) = (.ok (.scanned false #[]), session.clearCalls) :=
  session.step_of_missing (.inl h) rfl rfl

theorem step_scanWithoutInput (valid : TokenFlags) :
    session.step (.scanWithoutInput valid) = (.ok (.scanned false #[]), session.clearCalls) :=
  session.step_of_missing (.inr (.inl rfl)) rfl rfl

theorem step_scanWithoutFlags :
    session.step .scanWithoutFlags = (.ok (.scanned false #[]), session.clearCalls) :=
  session.step_of_missing (.inr (.inr rfl)) rfl rfl

/-- What a session makes of an answer of its host. -/
def answered (result : Except Fault (Reply × Host)) : Except Fault Reply × Session :=
  match result with
  | .ok (reply, host) => (.ok reply, { session.clearCalls with host })
  | .error fault => (.error fault, session.clearCalls)

theorem step_of_run {command : Command} {result : Except Fault (Reply × Host)}
    (h : session.clearCalls.run command =
      result.map fun answer => (answer.1, { session.clearCalls with host := answer.2 })) :
    session.step command = session.answered result := by
  cases result with
  | error fault => exact Commands.step_of_error h
  | ok answer => exact Commands.step_of_ok h

theorem step_call (call : Input.Call) : session.step (.call call) = session.answered
    ((Input.perform session.clearCalls.host call).map fun result =>
      (.answer result.1, result.2)) := by
  apply step_of_run
  rw [run]
  cases Input.perform session.clearCalls.host call <;> rfl

theorem step_scanHost (valid : TokenFlags) : session.step (.scanHost valid) = session.answered
    ((Block.scan valid session.clearCalls.host).map fun scan =>
      (.scanned scan.found scan.events, scan.input)) := by
  apply step_of_run
  rw [run]
  cases Block.scan valid session.clearCalls.host <;> rfl

theorem step_scan_of_payload (h : session.payload.isSome = true) (valid : TokenFlags) :
    session.step (.scan valid) = session.answered
      ((Block.scan valid session.clearCalls.host).map fun scan =>
        (.scanned scan.found (reported scan).events, scan.input)) := by
  rcases session with ⟨_ | payload, host⟩
  · cases h
  · apply step_of_run
    simp only [run, clearCalls, Session.scan, scan_eq_map_reported]
    cases Block.scan valid { host with calls := #[] } <;> rfl

/-- A scan of the plug-in depends on whether there is a payload, and on nothing of the payload. -/
theorem step_scan (valid : TokenFlags) : session.step (.scan valid) = session.answered
    (if session.payload.isSome then
      (Block.scan valid session.clearCalls.host).map fun scan =>
        (.scanned scan.found (reported scan).events, scan.input)
    else .ok (.scanned false #[], session.clearCalls.host)) := by
  cases hpayload : session.payload with
  | none => exact session.step_scan_of_payload_eq_none hpayload valid
  | some payload => exact session.step_scan_of_payload (by rw [hpayload]; rfl) valid

theorem isSome_payload_step (command : Command) :
    (session.step command).2.payload.isSome = command.holds session.payload.isSome := by
  have hanswered : ∀ result, (session.answered result).2.payload = session.payload := by
    rintro (fault | ⟨reply, host⟩) <;> rfl
  cases command with
  | create | destroy | save | recognized | setLookahead | setSymbol | seek => rfl
  | restore => exact Option.isSome_map
  | scan =>
    rw [step_scan, hanswered]
    rfl
  | scanWithoutInput =>
    rw [step_scanWithoutInput]
    rfl
  | scanWithoutFlags =>
    rw [step_scanWithoutFlags]
    rfl
  | call =>
    rw [step_call, hanswered]
    rfl
  | scanHost =>
    rw [step_scanHost, hanswered]
    rfl

theorem step_scan_eq_map_reported (h : session.payload.isSome = true) (flag : Bool)
    (flags : List Bool) : session.step (.scan ⟨flag :: flags⟩) =
      ((session.step (.scanHost ⟨[flag]⟩)).1.map Reply.reported,
        (session.step (.scanHost ⟨[flag]⟩)).2) := by
  have hflags : Block.scan ⟨flag :: flags⟩ session.clearCalls.host =
      Block.scan ⟨[flag]⟩ session.clearCalls.host := Block.scan_congr rfl _
  rw [step_scan_of_payload _ h, step_scanHost, hflags]
  cases Block.scan ⟨[flag]⟩ session.clearCalls.host with
  | error fault => rfl
  | ok scan =>
    rcases scan with ⟨_ | _, input, events⟩
    · rfl
    · rfl

end Steps

/-! ## Answers of scans -/

section Answers

variable {session : Session} {command : Command} {found : Bool} {events : Array Log.Event}
  (h : (session.step command).1 = .ok (.scanned found events))

include h

theorem exists_scan_of_step_eq {reports : Block.Scan Host → Array Log.Event} {valid : TokenFlags}
    (hstep : session.step command =
      session.answered ((Block.scan valid session.clearCalls.host).map fun scan =>
        (.scanned scan.found (reports scan), scan.input))) :
    ∃ scan, Block.scan valid session.clearCalls.host = .ok scan ∧ scan.found = found ∧
      (session.step command).2.host = scan.input ∧ events = reports scan := by
  cases hscan : Block.scan valid session.clearCalls.host with
  | error fault =>
    rw [hstep, hscan] at h
    cases h
  | ok scan =>
    rw [hscan] at hstep
    rw [hstep] at h ⊢
    cases h
    exact ⟨scan, rfl, rfl, rfl, rfl⟩

/-- Where a session answers like a scan, either nothing was done or its host was scanned. -/
theorem exists_scan_of_scanned : found = false ∧ events = #[] ∨
    ∃ valid scan, Block.scan valid session.clearCalls.host = .ok scan ∧ scan.found = found ∧
      (session.step command).2.host = scan.input ∧
      (events = scan.events ∨ events = (reported scan).events) := by
  cases command with
  | scan valid =>
    cases hpayload : session.payload with
    | none =>
      rw [step_scan_of_payload_eq_none _ hpayload] at h
      cases h
      exact .inl ⟨rfl, rfl⟩
    | some payload =>
      have hpresent : session.payload.isSome = true := by rw [hpayload]; rfl
      obtain ⟨scan, hscan, hfound, hhost, hevents⟩ :=
        exists_scan_of_step_eq h (session.step_scan_of_payload hpresent valid)
      exact .inr ⟨valid, scan, hscan, hfound, hhost, .inr hevents⟩
  | scanHost valid =>
    obtain ⟨scan, hscan, hfound, hhost, hevents⟩ :=
      exists_scan_of_step_eq h (session.step_scanHost valid)
    exact .inr ⟨valid, scan, hscan, hfound, hhost, .inl hevents⟩
  | scanWithoutInput valid =>
    rw [step_scanWithoutInput] at h
    cases h
    exact .inl ⟨rfl, rfl⟩
  | scanWithoutFlags =>
    rw [step_scanWithoutFlags] at h
    cases h
    exact .inl ⟨rfl, rfl⟩
  | call call =>
    rw [step_call] at h
    cases hperform : Input.perform session.clearCalls.host call <;> rw [hperform] at h <;> cases h
  | _ => cases h

theorem recognized_of_scanned (hfound : found = true) :
    (session.step command).2.host.recognized = .ok .llvmIr := by
  rcases exists_scan_of_scanned h with ⟨hnot, -⟩ | ⟨valid, scan, hscan, hsame, hhost, -⟩
  · rw [hfound] at hnot
    cases hnot
  · rw [hhost]
    exact recognized_of_scan hscan (hsame.trans hfound)

theorem symbolUnrecognized_not_mem_of_scanned (error : SymbolError) :
    .symbolUnrecognized error ∉ events := by
  rcases exists_scan_of_scanned h with ⟨-, rfl⟩ | ⟨valid, scan, hscan, -, -, hevents⟩
  · exact Array.not_mem_empty _
  · obtain ⟨hscanned, hreported⟩ := symbolUnrecognized_not_mem hscan error
    rcases hevents with rfl | rfl
    · exact hscanned
    · exact hreported

end Answers

/-! ## Runs -/

/-- The steps of a session that are not of the life cycle, and for each that is a scan whether a
payload was there. -/
def work (session : Session) : List Command → List (Command × Bool)
  | [] => []
  | command :: commands =>
    let rest := (session.step command).2.work commands
    if command.isLifecycle then rest
    else (command, command.isScan && session.payload.isSome) :: rest

/-- What is seen of the steps that are not of the life cycle: their answers, and the host behind
each of them. -/
def seen (session : Session) : List Command → List (Except Fault Reply × Host)
  | [] => []
  | command :: commands =>
    let rest := (session.step command).2.seen commands
    if command.isLifecycle then rest
    else ((session.step command).1, (session.step command).2.host) :: rest

/-- A session with a payload or without one. -/
def holding (held : Bool) (host : Host) : Session := ⟨if held then some default else none, host⟩

theorem isSome_payload_holding (held : Bool) (host : Host) :
    (holding held host).payload.isSome = held := by
  cases held <;> rfl

/-- What is seen of work alone, and the host behind it. -/
def replay (host : Host) : List (Command × Bool) → List (Except Fault Reply × Host) × Host
  | [] => ([], host)
  | (command, held) :: work =>
    let result := (holding held host).step command
    let rest := replay result.2.clearCalls.host work
    ((result.1, result.2.host) :: rest.1, rest.2)

/-- A step that is not of the life cycle depends on the host, and a scan on whether there is a
payload. -/
theorem step_congr {session session' : Session} {command : Command}
    (h : command.isLifecycle = false)
    (hheld : command.isScan = true → session.payload.isSome = session'.payload.isSome)
    (hhost : session.clearCalls.host = session'.clearCalls.host) :
    (session.step command).1 = (session'.step command).1 ∧
      (session.step command).2.host = (session'.step command).2.host := by
  have hanswered : ∀ result, (session.answered result).1 = (session'.answered result).1 ∧
      (session.answered result).2.host = (session'.answered result).2.host := by
    rintro (fault | ⟨reply, host⟩)
    · exact ⟨rfl, hhost⟩
    · exact ⟨rfl, rfl⟩
  cases command with
  | create | destroy | save | restore => cases h
  | scan valid =>
    rw [step_scan, step_scan, hheld rfl, hhost]
    exact hanswered _
  | scanWithoutInput valid =>
    rw [step_scanWithoutInput, step_scanWithoutInput]
    exact ⟨rfl, hhost⟩
  | scanWithoutFlags =>
    rw [step_scanWithoutFlags, step_scanWithoutFlags]
    exact ⟨rfl, hhost⟩
  | call call =>
    rw [step_call, step_call, hhost]
    exact hanswered _
  | scanHost valid =>
    rw [step_scanHost, step_scanHost, hhost]
    exact hanswered _
  | recognized =>
    exact ⟨congrArg (fun host : Host => Except.ok (Reply.kind host.recognized)) hhost, hhost⟩
  | setLookahead unit =>
    exact ⟨rfl, congrArg (fun host => { host with lookahead := unit }) hhost⟩
  | setSymbol symbol => exact ⟨rfl, congrArg (fun host => { host with symbol }) hhost⟩
  | seek pos => exact ⟨rfl, congrArg (fun host => host.seek pos) hhost⟩

/-- What is seen of a session, and the host behind it, are those of its work. -/
theorem seen_eq_replay (session : Session) (commands : List Command) :
    replay session.clearCalls.host (session.work commands) =
      (session.seen commands, (session.after commands).clearCalls.host) := by
  induction commands generalizing session with
  | nil => rfl
  | cons command commands ih =>
    have hrest := ih (session.step command).2
    cases hlifecycle : command.isLifecycle with
    | true =>
      have hhost : (session.step command).2.clearCalls.host = session.clearCalls.host := by
        rw [clearCalls, host_step_of_isLifecycle session hlifecycle]
        rfl
      rw [hhost] at hrest
      rw [work, seen, if_pos hlifecycle, if_pos hlifecycle, hrest]
      rfl
    | false =>
      have hheld : command.isScan = true → session.payload.isSome =
          (holding (command.isScan && session.payload.isSome)
            session.clearCalls.host).payload.isSome := by
        intro hscan
        rw [isSome_payload_holding, hscan, Bool.true_and]
      obtain ⟨hanswer, hhost⟩ := step_congr hlifecycle hheld rfl
      rw [clearCalls, hhost] at hrest
      rw [work, seen, if_neg (by simp [hlifecycle]), if_neg (by simp [hlifecycle]), hanswer, hhost,
        replay]
      exact congrArg (fun rest => (_ :: rest.1, rest.2)) hrest

theorem inert (session : Session) : session.Inert where
  lifecycle _ h := session.host_step_of_isLifecycle h
  held := session.isSome_payload_step
  saved buffer := ⟨save_eq _ buffer, session.reply_step_save buffer⟩
  withoutPayload := session.step_scan_of_payload_eq_none
  withoutInput := session.step_scanWithoutInput
  withoutFlags := session.step_scanWithoutFlags
  missing _ _ := Plugin.scan_of_missing
  scan := session.step_scan_eq_map_reported
  recognized _ _ h := recognized_of_scanned h rfl
  known _ _ _ h := symbolUnrecognized_not_mem_of_scanned h

/-- **The entry points carry no state from one call to the next.**  Two sessions that start with the
same host and differ in steps of the life cycle only are seen to do the same, as long as each scan
has a payload in both or in neither, and leave the same host. -/
theorem carries_no_state (session : Session) : session.Inert ∧
    ∀ (session' : Session) (commands commands' : List Command), session.host = session'.host →
      session.work commands = session'.work commands' →
      session.seen commands = session'.seen commands' ∧
        (session.after commands).clearCalls.host = (session'.after commands').clearCalls.host := by
  refine ⟨session.inert, ?_⟩
  intro session' commands commands' hhost hwork
  have hclear : session.clearCalls.host = session'.clearCalls.host :=
    congrArg (fun host : Host => { host with calls := #[] }) hhost
  have hreplay := session.seen_eq_replay commands
  rw [hclear, hwork, session'.seen_eq_replay commands'] at hreplay
  exact ⟨congrArg Prod.fst hreplay.symm, congrArg Prod.snd hreplay.symm⟩

/-- A payload that is restored and saved before the scan, and one that is given back behind it. -/
theorem carries_no_state_of_saved_payload :
    let session := start (Host.start (Host.unitsOfText "\x7b\x7d\x7d") 0 none)
    let commands := [Command.create, .scan ⟨[true]⟩, .destroy, .recognized]
    let commands' := [Command.create, .restore none 9, .save none, .scan ⟨[true]⟩, .recognized]
    session.work commands = session.work commands' ∧
      session.seen commands = session.seen commands' ∧
      (session.after commands).clearCalls.host = (session.after commands').clearCalls.host := by
  intro session commands commands'
  have hwork : session.work commands = session.work commands' := by
    simp only [commands, commands', work, isSome_payload_step]
    rfl
  exact ⟨hwork, (carries_no_state session).2 session commands commands' rfl hwork⟩

end Session

end Plugin

end AsmBlock
