import AsmBlock.Input

/-!
# Reading an input

`Input.Reads` says which characters an input yields on the way from one state to another.  It is all
that a scan can learn of its input, whatever the input is made of.  `Input.performAll` puts any
calls to an input, in any order, and collects the answers.
-/

namespace AsmBlock

namespace Input

variable {σ : Type} [Input σ]

/-! ## Reading -/

/-- Reading characters one by one leads from the first state to the last. -/
inductive Reads : σ → List Char → σ → Prop where
  | nil (state : σ) : Reads state [] state
  | cons {state next last : σ} {char : Char} {chars : List Char}
      (hend : atEnd state = .ok false) (hchar : lookahead state = .ok char)
      (hnext : advance false state = .ok next) (hrest : Reads next chars last) :
      Reads state (char :: chars) last

namespace Reads

theorem unique {first last last' : σ} {chars : List Char} (h : Reads first chars last)
    (h' : Reads first chars last') : last = last' := by
  induction h with
  | nil => cases h'; rfl
  | cons _ _ hnext _ ih =>
    cases h' with
    | cons _ _ hnext' hrest' =>
      rw [hnext] at hnext'
      cases hnext'
      exact ih hrest'

/-- Reading can be cut behind any of the characters. -/
theorem split {first last : σ} {front back : List Char} (h : Reads first (front ++ back) last) :
    ∃ middle, Reads first front middle ∧ Reads middle back last := by
  induction front generalizing first with
  | nil => exact ⟨first, .nil first, h⟩
  | cons char front ih =>
    cases h with
    | cons hend hchar hnext hrest =>
      obtain ⟨middle, hfront, hback⟩ := ih hrest
      exact ⟨middle, .cons hend hchar hnext hfront, hback⟩

end Reads

/-! ## Calls -/

/-- The answers to a list of calls, and the state behind the last of them. -/
def performAll (state : σ) : List Call → Except Fault (List Answer × σ)
  | [] => .ok ([], state)
  | call :: calls => do
    let (answer, next) ← perform state call
    let (answers, last) ← performAll next calls
    return (answer :: answers, last)

section Calls

variable {state next : σ}

theorem perform_lookahead {char : Char} (h : lookahead state = .ok char) :
    perform state .lookahead = .ok (.char char, state) := by
  rw [perform, h]
  rfl

theorem perform_atEnd {flag : Bool} (h : atEnd state = .ok flag) :
    perform state .atEnd = .ok (.flag flag, state) := by
  rw [perform, h]
  rfl

theorem perform_advance {skip : Bool} (h : advance skip state = .ok next) :
    perform state (.advance skip) = .ok (.done, next) := by
  rw [perform, h]
  rfl

theorem performAll_cons {last : σ} {call : Call} {calls : List Call} {answer : Answer}
    {answers : List Answer} (hcall : perform state call = .ok (answer, next))
    (hcalls : performAll next calls = .ok (answers, last)) :
    performAll state (call :: calls) = .ok (answer :: answers, last) := by
  rw [performAll, hcall]
  simp only [bind, Except.bind, hcalls]
  rfl

end Calls

/-- Reading is a call for each character, and nothing is answered to it. -/
theorem Reads.performAll {first middle last : σ} {chars : List Char} {calls : List Call}
    {answers : List Answer} (h : Reads first chars middle)
    (hcalls : Input.performAll middle calls = .ok (answers, last)) :
    Input.performAll first (List.replicate chars.length (.advance false) ++ calls) =
      .ok (List.replicate chars.length .done ++ answers, last) := by
  induction h with
  | nil => exact hcalls
  | cons _ _ hnext _ ih => exact performAll_cons (perform_advance hnext) (ih hcalls)

end Input

end AsmBlock
