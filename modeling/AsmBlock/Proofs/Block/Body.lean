import AsmBlock.Proofs.Block.Walk

/-!
# The grammar of block bodies

`Body` holds the derivations of the grammar

    Body = (empty) | Item Body
    Item = scalar | '"' w '"' | ';' w newline | '{' Body '}'

where a lone scalar is none of the four delimiters, the text of a string has no quote and the text
of a comment no newline.  A walk passes through a body and comes back to the depth at which it
entered (`Body.passes`), and every text starts with a body in front of a closing brace or is an
unfinished body (`Outlook.of_chars`).
-/

namespace AsmBlock

namespace Block

/-- A body of a block, by its derivation: empty, or one item in front of a body. -/
inductive Body where
  | nil
  | plain (char : Char) (hchar : char ∉ ['"', ';', '{', '}']) (rest : Body)
  | string (text : List Char) (htext : '"' ∉ text) (rest : Body)
  | comment (text : List Char) (htext : '\n' ∉ text) (rest : Body)
  | braces (inner rest : Body)

namespace Body

def chars : Body → List Char
  | nil => []
  | plain char _ rest => char :: rest.chars
  | string text _ rest => '"' :: (text ++ '"' :: rest.chars)
  | comment text _ rest => ';' :: (text ++ '\n' :: rest.chars)
  | braces inner rest => '{' :: (inner.chars ++ '}' :: rest.chars)

/-- How many braces of a body stand inside one another. -/
def nesting : Body → Nat
  | nil => 0
  | plain _ _ rest | string _ _ rest | comment _ _ rest => rest.nesting
  | braces inner rest => max (inner.nesting + 1) rest.nesting

/-- The changes of depth in a body that is entered at a given depth. -/
def events (depth : Nat) : Body → List Log.Event
  | nil => []
  | plain _ _ rest | string _ _ rest | comment _ _ rest => rest.events depth
  | braces inner rest =>
    .braceOpened (depth + 1) ::
      (inner.events (depth + 1) ++ .braceClosed depth :: rest.events depth)

def append : Body → Body → Body
  | nil, back => back
  | plain char hchar rest, back => plain char hchar (rest.append back)
  | string text htext rest, back => string text htext (rest.append back)
  | comment text htext rest, back => comment text htext (rest.append back)
  | braces inner rest, back => braces inner (rest.append back)

@[simp] theorem chars_append (front back : Body) :
    (front.append back).chars = front.chars ++ back.chars := by
  induction front with
  | nil => rfl
  | plain _ _ _ ih | string _ _ _ ih | comment _ _ _ ih | braces _ _ _ ih =>
    simp [append, chars, ih]

end Body

/-! ## Passing through text -/

/-- The character that ends a string or a comment. -/
def Context.terminator? : Context → Option Char
  | .code => none
  | .string => some '"'
  | .comment => some '\n'

namespace State

variable {state middle last : State}

/-- A walk over `chars` leads from one state to another and finds no closing brace. -/
def Passes (state : State) (chars : List Char) (last : State) (events : List Log.Event) : Prop :=
  state.walk chars = ⟨false, chars.length, last, events⟩

theorem passes_nil (state : State) : state.Passes [] state [] := rfl

theorem passes_of_not_found {chars : List Char} (h : (state.walk chars).found = false) :
    state.Passes chars (state.walk chars).state (state.walk chars).events := by
  rw [Passes, ← h, ← length_walk_of_not_found h]

section

variable {char : Char} {chars : List Char} {events : List Log.Event}
  (h : middle.Passes chars last events)

include h

theorem Passes.cons (hmove : state.move (.ofChar char) = .next middle none) :
    state.Passes (char :: chars) last events := by
  rw [Passes, walk_cons_of_next hmove, h]
  rfl

theorem Passes.cons_event {event : Log.Event}
    (hmove : state.move (.ofChar char) = .next middle (some event)) :
    state.Passes (char :: chars) last (event :: events) := by
  rw [Passes, walk_cons_of_next hmove, h]
  rfl

end

theorem Passes.append {front back : List Char} {events events' : List Log.Event}
    (hfront : state.Passes front middle events) (hback : middle.Passes back last events') :
    state.Passes (front ++ back) last (events ++ events') := by
  rw [Passes, walk_append, hfront, hback, List.length_append]
  rfl

theorem Passes.walk_append {front : List Char} {events : List Log.Event}
    (h : state.Passes front middle events) (back : List Char) :
    state.walk (front ++ back) = { middle.walk back with
      length := front.length + (middle.walk back).length
      events := events ++ (middle.walk back).events } := by
  rw [State.walk_append, h]
  rfl

theorem move_code_of_plain {char : Char} (h : char ∉ ['"', ';', '{', '}']) (depth : Nat) :
    (State.mk .code depth).move (.ofChar char) = .next ⟨.code, depth⟩ none := by
  unfold CharClass.ofChar
  split <;> first | rfl | simp at h

variable {context : Context} {stop : Char} (hstop : context.terminator? = some stop)

include hstop

theorem move_terminator (depth : Nat) :
    (State.mk context depth).move (.ofChar stop) = .next ⟨.code, depth⟩ none := by
  cases context <;> cases hstop <;> rfl

theorem move_of_ne_terminator {char : Char} (h : char ≠ stop) (depth : Nat) :
    (State.mk context depth).move (.ofChar char) = .next ⟨context, depth⟩ none := by
  cases context with
  | code => cases hstop
  | string | comment =>
    cases hstop
    unfold CharClass.ofChar
    split <;> first | rfl | exact absurd rfl h

/-- Inside a string or comment a walk stays there up to its end. -/
theorem passes_hidden {text : List Char} (htext : stop ∉ text) (depth : Nat) :
    (State.mk context depth).Passes text ⟨context, depth⟩ [] := by
  induction text with
  | nil => exact passes_nil _
  | cons char text ih =>
    rw [List.mem_cons, not_or] at htext
    exact (ih htext.2).cons (move_of_ne_terminator hstop (Ne.symm htext.1) depth)

end State

/-- A walk through a body comes back to where it entered. -/
theorem Body.passes (body : Body) (depth : Nat) :
    (State.mk .code depth).Passes body.chars ⟨.code, depth⟩ (body.events depth) := by
  induction body generalizing depth with
  | nil => exact State.passes_nil _
  | plain char hchar rest ih => exact (ih depth).cons (State.move_code_of_plain hchar depth)
  | string text htext rest ih =>
    have hclose : (State.mk .string depth).Passes ('"' :: rest.chars) ⟨.code, depth⟩
        (rest.events depth) := (ih depth).cons rfl
    exact ((State.passes_hidden rfl htext depth).append hclose).cons rfl
  | comment text htext rest ih =>
    have hclose : (State.mk .comment depth).Passes ('\n' :: rest.chars) ⟨.code, depth⟩
        (rest.events depth) := (ih depth).cons rfl
    exact ((State.passes_hidden rfl htext depth).append hclose).cons rfl
  | braces inner rest ihinner ihrest =>
    have hclose : (State.mk .code (depth + 1)).Passes ('}' :: rest.chars) ⟨.code, depth⟩
        (.braceClosed depth :: rest.events depth) := (ihrest depth).cons_event rfl
    exact ((ihinner (depth + 1)).append hclose).cons_event rfl

/-- A walk stops in front of the closing brace behind a body. -/
theorem walk_closed (body : Body) (after : List Char) :
    State.start.walk (body.chars ++ '}' :: after) =
      ⟨true, body.chars.length, .start, body.events 0⟩ := by
  have hbrace : State.start.walk ('}' :: after) = ⟨true, 0, .start, []⟩ :=
    State.walk_cons_of_found rfl
  have hwalk := (body.passes 0).walk_append ('}' :: after)
  rw [← State.start, hbrace] at hwalk
  simpa using hwalk

/-! ## Unfinished bodies -/

/-- A body that ends with some of its braces open. -/
inductive OpenBody where
  | flat (body : Body)
  /-- Behind the first body a brace is opened, and the rest stands inside. -/
  | enter (body : Body) (inner : OpenBody)

namespace OpenBody

def chars : OpenBody → List Char
  | flat body => body.chars
  | enter body inner => body.chars ++ '{' :: inner.chars

/-- The number of braces left open. -/
def depth : OpenBody → Nat
  | flat _ => 0
  | enter _ inner => inner.depth + 1

def events (depth : Nat) : OpenBody → List Log.Event
  | flat body => body.events depth
  | enter body inner => body.events depth ++ .braceOpened (depth + 1) :: inner.events (depth + 1)

def prepend (front : Body) : OpenBody → OpenBody
  | flat body => .flat (front.append body)
  | enter body inner => .enter (front.append body) inner

@[simp] theorem chars_prepend (front : Body) (part : OpenBody) :
    (part.prepend front).chars = front.chars ++ part.chars := by
  cases part <;> simp [prepend, chars]

/-- A walk through an unfinished body is left as deep as braces are open. -/
theorem passes (part : OpenBody) (depth : Nat) :
    (State.mk .code depth).Passes part.chars ⟨.code, depth + part.depth⟩ (part.events depth) := by
  induction part generalizing depth with
  | flat body => exact body.passes depth
  | enter body inner ih =>
    have hinner : (State.mk .code depth).Passes ('{' :: inner.chars)
        ⟨.code, depth + 1 + inner.depth⟩
        (.braceOpened (depth + 1) :: inner.events (depth + 1)) := (ih (depth + 1)).cons_event rfl
    rw [show depth + 1 + inner.depth = depth + (inner.depth + 1) by omega] at hinner
    exact (body.passes depth).append hinner

end OpenBody

/-- The four ways in which a text can go on from behind the opening brace of a block. -/
inductive Outlook (chars : List Char) : Prop where
  /-- The block is closed behind a body. -/
  | closed (body : Body) (after : List Char) (h : chars = body.chars ++ '}' :: after)
  /-- The text ends with the block open. -/
  | ended (part : OpenBody) (h : chars = part.chars)
  /-- The text ends in a string. -/
  | inString (part : OpenBody) (text : List Char) (htext : '"' ∉ text)
      (h : chars = part.chars ++ '"' :: text)
  /-- The text ends in a comment. -/
  | inComment (part : OpenBody) (text : List Char) (htext : '\n' ∉ text)
      (h : chars = part.chars ++ ';' :: text)

namespace Outlook

variable {chars : List Char}

theorem prepend (front : Body) (h : Outlook chars) : Outlook (front.chars ++ chars) := by
  cases h with
  | closed body after h => exact .closed (front.append body) after (by simp [h])
  | ended part h => exact .ended (part.prepend front) (by simp [h])
  | inString part text htext h => exact .inString (part.prepend front) text htext (by simp [h])
  | inComment part text htext h => exact .inComment (part.prepend front) text htext (by simp [h])

/-- A text behind an opening brace has the outlook of what follows the matching brace, or is as
unfinished as what follows the brace itself. -/
theorem enter (h : Outlook chars)
    (hafter : ∀ (body : Body) (after : List Char), chars = body.chars ++ '}' :: after →
      Outlook after) : Outlook ('{' :: chars) := by
  cases h with
  | closed body after h =>
    have hbehind := (hafter body after h).prepend (.braces body .nil)
    simpa [Body.chars, h] using hbehind
  | ended part h => exact .ended (.enter .nil part) (by rw [h]; rfl)
  | inString part text htext h => exact .inString (.enter .nil part) text htext (by rw [h]; rfl)
  | inComment part text htext h => exact .inComment (.enter .nil part) text htext (by rw [h]; rfl)

/-- There is no fifth way. -/
theorem of_chars (chars : List Char) : Outlook chars := by
  -- not structural: behind a closed string, comment or brace it goes on with what follows that item
  induction hlength : chars.length using Nat.strongRecOn generalizing chars with
  | ind length ih =>
    subst hlength
    rcases chars with _ | ⟨char, chars⟩
    · exact .ended (.flat .nil) rfl
    have htail : Outlook chars := ih _ (Nat.lt_succ_self _) chars rfl
    by_cases hquote : char = '"'
    · subst hquote
      by_cases hmem : '"' ∈ chars
      · obtain ⟨text, after, rfl, htext⟩ := List.eq_append_cons_of_mem hmem
        have hafter := ih after.length (by simp; omega) after rfl
        simpa [Body.chars] using hafter.prepend (.string text htext .nil)
      · exact .inString (.flat .nil) chars hmem rfl
    by_cases hsemicolon : char = ';'
    · subst hsemicolon
      by_cases hmem : '\n' ∈ chars
      · obtain ⟨text, after, rfl, htext⟩ := List.eq_append_cons_of_mem hmem
        have hafter := ih after.length (by simp; omega) after rfl
        simpa [Body.chars] using hafter.prepend (.comment text htext .nil)
      · exact .inComment (.flat .nil) chars hmem rfl
    by_cases hopen : char = '{'
    · subst hopen
      refine htail.enter ?_
      rintro body after rfl
      exact ih after.length (by simp; omega) after rfl
    by_cases hclose : char = '}'
    · subst hclose
      exact .closed .nil chars rfl
    · have hplain : char ∉ ['"', ';', '{', '}'] := by
        simp [hquote, hsemicolon, hopen, hclose]
      exact htail.prepend (.plain char hplain .nil)

end Outlook

end Block

end AsmBlock
