import AsmBlock.Proofs.Block.Loop
import AsmBlock.Proofs.Block.Recognition
import AsmBlock.Proofs.Cursor.Faults
import AsmBlock.Proofs.Host.Scanning
import AsmBlock.Proofs.SourceInput.Reachability

/-!
# What is read and counted in a session

No command of a session over a source faults, and not because faults are caught: wherever an input
comes to stand, also in the middle of a scan, the byte that is read lies within the text or right
behind it, the end of a character within the text, and the depth below the number of characters read
(`Session.keeps_in_range`).  A token that was found has its closing brace in the text.
-/

namespace AsmBlock

/-- Reading at a cursor and stepping over a character stay within the text of a source and the byte
behind it.  The end of a character is a sum that no limit changes. -/
structure Cursor.Contained (source : Source) (cursor : Cursor) : Prop where
  source_eq : cursor.source = source
  pos_le : cursor.pos ≤ source.size
  pos_lt : cursor.pos < source.buffer.size
  charEnd : ∀ byte, cursor.byte = .ok byte → (0x80 ≤ byte ∨ cursor.atEnd = .ok false) →
    cursor.pos + Utf8.width byte ≤ source.size ∧
      cursor.charEnd byte = .ok (cursor.pos + Utf8.width byte)

namespace SourceInput

variable {source : Source}

theorem Within.contained {input : SourceInput} (h : input.Within) :
    Cursor.Contained input.cursor.source input.cursor where
  source_eq := rfl
  pos_le := h
  pos_lt := pos_lt_size_buffer h
  charEnd := fun _ hbyte hcomputed => Cursor.charEnd_of_byte hbyte hcomputed

/-- An input within its text comes to its end, by no more characters than there are bytes left. -/
theorem exists_reads {input : SourceInput} (h : input.Within) : ∃ chars,
    Input.Reads input chars (input.moveTo input.cursor.source.size) ∧
      chars.length ≤ input.remaining := by
  obtain ⟨gap, rest, hahead⟩ := input.cursor.source.exists_ahead h
  have hsize := hahead.restAt.pos_add_size
  have hlength := Utf8.length_le_size rest
  have hall : input.cursor.source.Ahead input.pos gap (rest ++ []) := by rwa [List.append_nil]
  have hreads := reads_of_ahead hall
  rw [hsize] at hreads
  refine ⟨_, hreads, ?_⟩
  rw [List.length_append, List.length_replicate, remaining]
  omega

/-- The loop of a scan moves its input forward and changes nothing else. -/
theorem reaches_of_leads {first input stop : SourceInput} {state last : Block.State} {count : Nat}
    (h : Block.Scan.Leads state input count last stop) (hinput : Reaches first input)
    (hfirst : first.Within) : Reaches first stop := by
  induction h with
  | refl => exact hinput
  | next _ _ _ hadvance _ ih =>
    obtain ⟨pos, hpos, hnext⟩ := exists_next (hinput.within hfirst)
    rw [advance_of_next hnext] at hadvance
    cases hadvance
    exact ih (hinput.moveTo hpos)

theorem steady_of_leads {input stop : SourceInput} {state : Block.State} {count : Nat}
    (h : Block.Scan.Leads .start input count state stop) (hinput : input.Within) :
    Block.Scan.Steady count state stop := by
  obtain ⟨chars, hreads, hlength⟩ := exists_reads hinput
  have hend : Input.atEnd (input.moveTo input.cursor.source.size) = .ok true :=
    Cursor.atEnd_size input.cursor.source
  have hlimit := input.cursor.source.size_lt_offsetLimit
  rw [remaining] at hlength
  exact h.steady hreads hend (by omega)

theorem exists_scanSource (source : Source) (start : Nat) (valid : TokenFlags) :
    ∃ token?, Block.scanSource source start valid = .ok token? := by
  obtain ⟨result, -, hscan, -⟩ := exists_scan (within_ofCursor source start) valid
  rw [Block.scanSource, hscan]
  exact ⟨_, rfl⟩

/-- The closing brace behind a token that was found is a byte of the text. -/
theorem closeEnd_of_scanSource {start : Nat} {valid : TokenFlags} {token : Token}
    (h : Block.scanSource source start valid = .ok (some token)) :
    token.closeEnd = .ok (token.stop + 1) ∧ token.stop + 1 ≤ source.size := by
  obtain ⟨-, gap, body, after, -, hahead, rfl⟩ := Block.exists_body_of_scanSource h
  have hbrace := hahead.restAt.skip.pos_add_size
  have hlimit := source.size_lt_offsetLimit
  have hsize : Utf8.size ('}' :: after) = 1 + Utf8.size after := rfl
  rw [hsize] at hbrace
  have hle : min start source.size + gap + Utf8.size body.chars + 1 ≤ source.size := by omega
  exact ⟨checkedAdd_of_lt (Nat.lt_of_le_of_lt hle hlimit), hle⟩

end SourceInput

namespace Block

theorem exists_scan_host {host : Host} (hlimit : host.endAt - host.pos < offsetLimit)
    (valid : TokenFlags) : ∃ result, scan valid host = .ok result := by
  rcases valid.contains_eq_false_or with hnot | ⟨flags, rfl⟩
  · exact ⟨_, scan_of_not_contains hnot host⟩
  · exact ⟨_, scan_host (host.length_ahead ▸ hlimit) flags⟩

theorem steady_host {host stop : Host} {state : State} {count : Nat}
    (h : Scan.Leads .start host count state stop) (hlimit : host.endAt - host.pos < offsetLimit) :
    Scan.Steady count state stop := by
  have hend : Input.atEnd (host.forward host.ahead.length) = .ok true :=
    congrArg Except.ok host.atEnd_forward
  exact h.steady host.reads_ahead hend (host.length_ahead ▸ hlimit)

end Block

/-- **Nothing leaves its range.**  After any commands no command faults.  The input stands within
its text, and so it does throughout a scan, in which the depth is steady.  A token that was found
ends in front of a byte of the text.  A scan of a host ends too, and its depth is steady, if fewer
units than there are offsets are left. -/
theorem SourceInput.Session.keeps_in_range :
    (∀ (source : Source) (start : Nat) (commands : List SourceInput.Command),
      let session := (Session.start (ofCursor (source.cursor start))).after commands
      Cursor.Contained source session.input.cursor ∧
      (∀ command, ∃ reply next, session.run command = .ok (reply, next)) ∧
      ∀ valid, Block.Scan.Throughout valid session.input fun count state input =>
        Cursor.Contained source input.cursor ∧ Block.Scan.Steady count state input) ∧
    (∀ (source : Source) (start : Nat) (valid : TokenFlags),
      ∃ token?, Block.scanSource source start valid = .ok token? ∧
        ∀ token, token? = some token →
          token.closeEnd = .ok (token.stop + 1) ∧ token.stop + 1 ≤ source.size) ∧
    ∀ host : Host, host.endAt - host.pos < offsetLimit →
      ∀ valid, Block.Scan.Throughout valid host Block.Scan.Steady := by
  refine ⟨?_, ?_, ?_⟩
  · intro source start commands session
    have hfirst := within_ofCursor source start
    have hfrom : From (ofCursor (source.cursor start)) session :=
      from_after (from_start _) hfirst commands
    have hwithin := hfrom.input.within hfirst
    have hsource : session.input.cursor.source = source := hfrom.input.source_eq
    refine ⟨hsource ▸ hwithin.contained, ?_, ?_⟩
    · intro command
      obtain ⟨reply, next, hrun, -⟩ := exists_run hfrom hfirst command
      exact ⟨reply, next, hrun⟩
    · intro valid
      obtain ⟨result, -, hscan, -⟩ := exists_scan hwithin valid
      refine Block.Scan.throughout_of_leads hscan ?_
      intro count state input hleads
      have hreaches := reaches_of_leads hleads .refl hwithin
      have hsource' : input.cursor.source = source := hreaches.source_eq.trans hsource
      exact ⟨hsource' ▸ (hreaches.within hwithin).contained, steady_of_leads hleads hwithin⟩
  · intro source start valid
    obtain ⟨token?, hscan⟩ := exists_scanSource source start valid
    refine ⟨token?, hscan, ?_⟩
    rintro token rfl
    exact closeEnd_of_scanSource hscan
  · intro host hlimit valid
    obtain ⟨result, hscan⟩ := Block.exists_scan_host hlimit valid
    refine Block.Scan.throughout_of_leads hscan ?_
    intro count state stop hleads
    exact Block.steady_host hleads hlimit

/-- A host with an opening brace put into the lookahead by hand, and the loop of its scan behind the
quote that follows. -/
theorem SourceInput.Session.keeps_in_range_of_set_lookahead :
    let host : Host := { Host.start (Host.unitsOfText "ü\"\x7d\"\x7d\x7d") 0 none with
      lookahead := 123, symbol := 7 }
    let stop := (host.advance false).advance false
    host.endAt - host.pos < offsetLimit ∧
      Block.Scan.Throughout ⟨[true]⟩ host Block.Scan.Steady ∧
      Block.Scan.Leads .start host 2 ⟨.string, 1⟩ stop ∧
      Block.Scan.Steady 2 ⟨.string, 1⟩ stop := by
  intro host stop
  have hlimit : host.endAt - host.pos < offsetLimit := by decide
  have hthroughout := SourceInput.Session.keeps_in_range.2.2 host hlimit ⟨[true]⟩
  have hquote : Block.Scan.Leads ⟨.code, 1⟩ (host.advance false) 1 ⟨.string, 1⟩ stop := by
    have hchar : Input.lookahead (host.advance false) = .ok '"' := rfl
    exact .next rfl hchar rfl rfl (.refl _ _)
  have hleads : Block.Scan.Leads .start host 2 ⟨.string, 1⟩ stop := by
    have hchar : Input.lookahead host = .ok '\x7b' := rfl
    exact .next rfl hchar rfl rfl hquote
  have hsteady : Block.Scan.Steady 2 ⟨.string, 1⟩ stop := by
    obtain ⟨result, hscan, hloop⟩ := hthroughout
    exact (hloop rfl).2 2 ⟨.string, 1⟩ stop hleads
  exact ⟨hlimit, hthroughout, hleads, hsteady⟩

end AsmBlock
